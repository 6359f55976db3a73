import Mbtk.Yuv.Convert

namespace Mbtk.Yuv

open Lib MString YuvType

def interleave {α : Type*} : List α → List α → List α
  | a :: as, b :: bs => a :: b :: interleave as bs
  | _, _ => []

/-- The planes of a picture of even width and height. -/
structure Planes (w h : ℕ) where
  y : List UInt8
  u : List UInt8
  v : List UInt8
  length_y : y.length = w * h
  length_u : u.length = w / 2 * (h / 2)
  length_v : v.length = w / 2 * (h / 2)

/-- The layouts of a frame. -/
inductive Layout where
  | i420
  | yu12
  | nv12
  | nv21
  deriving DecidableEq

def Layout.type : Layout → YuvType
  | .i420 => YUV_TYPE_I420
  | .yu12 => YUV_TYPE_YU12
  | .nv12 => YUV_TYPE_NV12
  | .nv21 => YUV_TYPE_NV21

/-- Both colours stand in one plane. -/
def Layout.Interleaved (layout : Layout) : Prop := layout = .nv12 ∨ layout = .nv21

instance (layout : Layout) : Decidable layout.Interleaved :=
  inferInstanceAs (Decidable (layout = .nv12 ∨ layout = .nv21))

def Layout.uv {α : Type*} : Layout → List α → List α → List α
  | .i420, u, v => u ++ v
  | .yu12, u, v => v ++ u
  | .nv12, u, v => interleave u v
  | .nv21, u, v => interleave v u

def Layout.frame {w h : ℕ} (layout : Layout) (p : Planes w h) : List UInt8 :=
  p.y ++ layout.uv p.u p.v

/-- A colour, cut to its 18 bits, as a byte. -/
def colour (x : ℤ) : UInt8 := (max 0 (min x (2 ^ 18 - 1)) / 2 ^ 10).toNat.toUInt8

/-- The pixel of a brightness and two colours. -/
def rgb (y u v : UInt8) : List UInt8 :=
  let y1192 := 1192 * max ((y.toNat : ℤ) - 16) 0
  let u := (u.toNat : ℤ) - 128
  let v := (v.toNat : ℤ) - 128
  [colour (y1192 + 1634 * v), colour (y1192 - 833 * v - 400 * u), colour (y1192 + 2066 * u)]

/-- The pixel in a row and a column of the picture. -/
def Planes.pixel {w h : ℕ} (p : Planes w h) (j i : ℕ) : List UInt8 :=
  rgb (p.y.getD (j * w + i) 0) (p.u.getD (j / 2 * (w / 2) + i / 2) 0)
    (p.v.getD (j / 2 * (w / 2) + i / 2) 0)

def pixels (f : ℕ → List UInt8) (n : ℕ) : List UInt8 := (List.range n).flatMap f

section Bytes

variable {x : ℤ} {y u v : UInt8} {α : Type*} {as bs : List α}

theorem clamp_eq (x : ℤ) : clamp x = max 0 (min x (2 ^ 18 - 1)) := by
  unfold clamp
  split_ifs <;> omega

theorem clamp_nonneg (x : ℤ) : 0 ≤ clamp x := by
  rw [clamp_eq]
  exact le_max_left _ _

theorem clamp_lt (x : ℤ) : clamp x < 2 ^ 18 := by
  rw [clamp_eq]
  omega

theorem shift_byte {n : ℕ} (h : n < 2 ^ 18) : (n >>> 10) &&& 0xff = n / 1024 := by
  rw [Nat.shiftRight_eq_div_pow]
  exact (Nat.and_two_pow_sub_one_eq_mod _ 8).trans (Nat.mod_eq_of_lt (by omega))

theorem colour_eq (x : ℤ) : colour x = ((clamp x).toNat / 1024).toUInt8 := by
  have h := clamp_nonneg x
  rw [colour, ← clamp_eq]
  congr 1
  omega

theorem toNat_clamp_lt (x : ℤ) : (clamp x).toNat < 2 ^ 18 := by
  have h := clamp_nonneg x
  have hlt := clamp_lt x
  omega

theorem redByte_clamp (x : ℤ) : redByte (clamp x) = colour x := by
  have h : (clamp x).toNat <<< 6 >>> 16 = (clamp x).toNat >>> 10 := by
    rw [Nat.shiftLeft_eq, Nat.shiftRight_eq_div_pow, Nat.shiftRight_eq_div_pow]
    omega
  rw [redByte, Nat.shiftRight_and_distrib, h, colour_eq, ← shift_byte (toNat_clamp_lt x)]
  rfl

theorem greenByte_clamp (x : ℤ) : greenByte (clamp x) = colour x := by
  have h : (clamp x).toNat >>> 2 >>> 8 = (clamp x).toNat >>> 10 := (Nat.shiftRight_add _ 2 8).symm
  rw [greenByte, Nat.shiftRight_and_distrib, h, colour_eq, ← shift_byte (toNat_clamp_lt x)]
  rfl

theorem blueByte_clamp (x : ℤ) : blueByte (clamp x) = colour x := by
  rw [blueByte, colour_eq, shift_byte (toNat_clamp_lt x)]

theorem luma_eq (y : UInt8) : luma y = max ((y.toNat : ℤ) - 16) 0 := by
  unfold luma
  dsimp only
  split_ifs <;> omega

theorem toNat_ofInt {n : ℕ} (h : n < 2 ^ 32) : (UInt32.ofInt n).toNat = n := by
  rw [UInt32.ofInt, UInt32.toNat_ofNat']
  omega

theorem toNat_ofNat {n : ℕ} (h : n < 2 ^ 32) : (UInt32.ofNat n).toNat = n :=
  UInt32.toNat_ofNat_of_lt' h

theorem writePixel_eq {yp : UInt32} (h : 3 * yp.toNat + 2 < 2 ^ 32) (dst : List UInt8)
    (r g b : ℤ) :
    writePixel dst yp r g b = copyInto dst (3 * yp.toNat) [colour r, colour g, colour b] := by
  have h0 : (yp * 3).toNat = 3 * yp.toNat := by
    rw [UInt32.toNat_mul]
    change yp.toNat * 3 % 2 ^ 32 = _
    omega
  have h1 : (yp * 3 + 1).toNat = 3 * yp.toNat + 1 := by
    rw [UInt32.toNat_add, h0]
    change (3 * yp.toNat + 1) % 2 ^ 32 = _
    omega
  have h2 : (yp * 3 + 2).toNat = 3 * yp.toNat + 1 + 1 := by
    rw [UInt32.toNat_add, h0]
    change (3 * yp.toNat + 2) % 2 ^ 32 = _
    omega
  have hlast (dst : List UInt8) := copyInto_bind dst (3 * yp.toNat + 1) [colour g] [colour b]
  have hall := copyInto_bind dst (3 * yp.toNat) [colour r] ([colour g] ++ [colour b])
  simp only [List.length_singleton] at hlast hall
  rw [writePixel, h0, h1, h2, redByte_clamp, greenByte_clamp, blueByte_clamp]
  refine Eq.trans ?_ hall
  exact congrArg _ (funext hlast)

def colours (y : UInt8) (temps : ℤ × ℤ × ℤ) : List UInt8 :=
  [colour (1192 * luma y + temps.1), colour (1192 * luma y - temps.2.1),
    colour (1192 * luma y + temps.2.2)]

theorem colours_chromaTemps (y u v : UInt8) :
    colours y (chromaTemps (chroma u) (chroma v)) = rgb y u v := by
  have hg : 1192 * luma y - (833 * chroma v + 400 * chroma u) =
      1192 * luma y - 833 * chroma v - 400 * chroma u := by
    ring
  rw [colours, chromaTemps, hg, rgb, ← luma_eq]
  rfl

theorem getElem?_interleave (h : as.length = bs.length) (c : ℕ) :
    (interleave as bs)[2 * c]? = as[c]? ∧ (interleave as bs)[2 * c + 1]? = bs[c]? := by
  induction as generalizing bs c with
  | nil =>
    obtain rfl := List.length_eq_zero_iff.mp h.symm
    exact ⟨rfl, rfl⟩
  | cons a as ih =>
    obtain ⟨b, bs, rfl⟩ := List.exists_cons_of_length_pos (by rw [← h]; exact Nat.succ_pos _)
    cases c with
    | zero => exact ⟨rfl, rfl⟩
    | succ c => exact ih (Nat.succ.inj h) c

theorem getElem?_eq_getD {i : ℕ} {l : List UInt8} (h : i < l.length) :
    l[i]? = some (l.getD i 0) := by
  rw [List.getD_eq_getElem?_getD, List.getElem?_eq_getElem h]
  rfl

end Bytes

section Pixels

variable {f g : ℕ → List UInt8}

theorem pixels_succ (f : ℕ → List UInt8) (n : ℕ) : pixels f (n + 1) = pixels f n ++ f n := by
  rw [pixels, List.range_succ, List.flatMap_append, List.flatMap_singleton, pixels]

theorem length_pixels (hf : ∀ k, (f k).length = 3) (n : ℕ) : (pixels f n).length = 3 * n := by
  induction n with
  | zero => rfl
  | succ n ih => rw [pixels_succ, List.length_append, ih, hf, Nat.mul_succ]

theorem take_drop_pixels (hf : ∀ k, (f k).length = 3) {n k : ℕ} (hk : k < n) :
    ((pixels f n).drop (3 * k)).take 3 = f k := by
  induction n with
  | zero => exact absurd hk (Nat.not_lt_zero k)
  | succ n ih =>
    have hlen := length_pixels hf n
    rw [pixels_succ]
    obtain hlt | rfl := Nat.lt_succ_iff_lt_or_eq.mp hk
    · rw [List.drop_append_of_le_length (by omega),
        List.take_append_of_le_length (by rw [List.length_drop]; omega), ih hlt]
    · rw [← hlen, List.drop_left]
      exact List.take_of_length_le (hf k).le

theorem pixels_eq_iff (hf : ∀ k, (f k).length = 3) (hg : ∀ k, (g k).length = 3) {n : ℕ} :
    pixels f n = pixels g n ↔ ∀ k < n, f k = g k := by
  constructor
  · intro h k hk
    rw [← take_drop_pixels hf hk, h, take_drop_pixels hg hk]
  · intro h
    induction n with
    | zero => rfl
    | succ n ih =>
      rw [pixels_succ, pixels_succ, ih fun k hk => h k (Nat.lt_succ_of_lt hk),
        h n (Nat.lt_succ_self n)]

theorem copyInto_pixels (hf : ∀ k, (f k).length = 3) {dst : List UInt8} {n : ℕ}
    (hdst : 3 * n + 3 ≤ dst.length) :
    copyInto (pixels f n ++ dst.drop (3 * n)) (3 * n) (f n) =
      some (pixels f (n + 1) ++ dst.drop (3 * (n + 1))) := by
  have hroom : (f n).length ≤ (dst.drop (3 * n)).length := by
    rw [hf, List.length_drop]
    omega
  have hwrite := copyInto_append (w := pixels f n) hroom
  rw [length_pixels hf] at hwrite
  rw [hwrite, pixels_succ, List.drop_drop, hf, Nat.mul_succ]

end Pixels

section Picture

variable {w h : ℕ} (p : Planes w h) (layout : Layout)

/-- The pixels row by row. -/
def Planes.picture (n : ℕ) : List UInt8 := pixels (fun k => p.pixel (k / w) (k % w)) n

theorem Planes.length_picture (n : ℕ) : (p.picture n).length = 3 * n :=
    length_pixels (fun _ => rfl) n

def Layout.position (size c : ℕ) : ℕ :=
  match layout with
  | .i420 | .yu12 => size + c
  | .nv12 | .nv21 => size + 2 * c

theorem readAt_natCast (src : List UInt8) (n : ℕ) : readAt src n = src[n]? := by
  rw [readAt, if_pos (Int.natCast_nonneg n), Int.toNat_natCast]

variable {p}

theorem getElem?_frame_y {n : ℕ} (hn : n < w * h) : (layout.frame p)[n]? = some (p.y.getD n 0) := by
  rw [Layout.frame, List.getElem?_append_left (by rw [p.length_y]; exact hn)]
  exact getElem?_eq_getD (by rw [p.length_y]; exact hn)

theorem getElem?_frame (n : ℕ) : (layout.frame p)[w * h + n]? = (layout.uv p.u p.v)[n]? := by
  rw [Layout.frame, List.getElem?_append_right (by rw [p.length_y]; omega), p.length_y,
    Nat.add_sub_cancel_left]

theorem readChroma_planes {type : YuvType} {src : List UInt8} {uvSize : UInt32} {n : ℕ} {a b :
    UInt8}
    (htype : type = YUV_TYPE_I420 ∨ type = YUV_TYPE_YU12) (hn : n + 1 < 2 ^ 31)
    (hsize : n + uvSize.toNat < 2 ^ 32) (ha : src[n]? = some a)
    (hb : src[n + uvSize.toNat]? = some b) :
    readChroma type src uvSize n =
      some (if type = YUV_TYPE_I420 then (chroma a, chroma b, ((n + 1 : ℕ) : ℤ))
        else (chroma b, chroma a, ((n + 1 : ℕ) : ℤ))) := by
  have hindex : (UInt32.ofInt n + uvSize).toNat = n + uvSize.toNat := by
    rw [UInt32.toNat_add, toNat_ofInt (by omega)]
    exact Nat.mod_eq_of_lt hsize
  have hadd : CInt.add n 1 = some ((n + 1 : ℕ) : ℤ) := by
    rw [CInt.add_of_lt (by omega) (by omega), Nat.cast_add, Nat.cast_one]
  rw [readChroma, readAt_natCast, ha]
  simp only [Option.bind_eq_bind, Option.bind_some, if_pos htype, hindex, hb, hadd]
  rfl

theorem readChroma_interleaved {type : YuvType} {src : List UInt8} {n : ℕ} {a b : UInt8}
    (uvSize : UInt32) (htype : ¬ (type = YUV_TYPE_I420 ∨ type = YUV_TYPE_YU12))
    (hn : n + 2 < 2 ^ 31)
    (ha : src[n]? = some a) (hb : src[n + 1]? = some b) :
    readChroma type src uvSize n =
      some (if type = YUV_TYPE_NV12 then (chroma a, chroma b, ((n + 2 : ℕ) : ℤ))
        else (chroma b, chroma a, ((n + 2 : ℕ) : ℤ))) := by
  have hadd : CInt.add n 1 = some ((n + 1 : ℕ) : ℤ) := by
    rw [CInt.add_of_lt (by omega) (by omega), Nat.cast_add, Nat.cast_one]
  have hadd' : CInt.add (n + 1 : ℕ) 1 = some ((n + 2 : ℕ) : ℤ) := by
    rw [CInt.add_of_lt (by omega) (by omega), Nat.cast_add, Nat.cast_add, add_assoc]
    rfl
  rw [readChroma, readAt_natCast, ha, Option.bind_eq_bind, Option.bind_some, if_neg htype, hadd,
    Option.bind_eq_bind, Option.bind_some, readAt_natCast, hb, Option.bind_some, hadd',
    Option.bind_some]
  rfl

theorem readChroma_frame {uvSize : UInt32} (huv : uvSize.toNat = w / 2 * (h / 2))
    (hlt : w * h + 2 * (w / 2 * (h / 2)) < 2 ^ 31) {c : ℕ} (hc : c < w / 2 * (h / 2)) :
    readChroma layout.type (layout.frame p) uvSize (layout.position (w * h) c) =
      some (chroma (p.u.getD c 0), chroma (p.v.getD c 0),
      (layout.position (w * h) (c + 1) : ℤ)) := by
  have hu := getElem?_eq_getD (l := p.u) (i := c) (by rw [p.length_u]; exact hc)
  have hv := getElem?_eq_getD (l := p.v) (i := c) (by rw [p.length_v]; exact hc)
  have huv' : p.u.length = p.v.length := p.length_u.trans p.length_v.symm
  -- the second of two planes stands behind the first
  have hplane {a b : List UInt8} (ha : a.length = w / 2 * (h / 2)) :
      (a ++ b)[c]? = a[c]? ∧ (a ++ b)[c + uvSize.toNat]? = b[c]? := by
    rw [List.getElem?_append_left (by omega), List.getElem?_append_right (by omega), ha, huv,
      Nat.add_sub_cancel]
    exact ⟨rfl, rfl⟩
  cases layout with
  | i420 =>
    refine (readChroma_planes (.inl rfl) (by simp only [Layout.position]; omega)
      (by simp only [Layout.position]; omega) ?_ ?_).trans rfl
    · exact ((getElem?_frame .i420 c).trans (hplane p.length_u).1).trans hu
    · rw [Layout.position, Nat.add_assoc]
      exact ((getElem?_frame .i420 _).trans (hplane p.length_u).2).trans hv
  | yu12 =>
    refine (readChroma_planes (.inr rfl) (by simp only [Layout.position]; omega)
      (by simp only [Layout.position]; omega) ?_ ?_).trans rfl
    · exact ((getElem?_frame .yu12 c).trans (hplane p.length_v).1).trans hv
    · rw [Layout.position, Nat.add_assoc]
      exact ((getElem?_frame .yu12 _).trans (hplane p.length_v).2).trans hu
  | nv12 =>
    refine (readChroma_interleaved uvSize (by decide) (by simp only [Layout.position]; omega)
      ?_ ?_).trans rfl
    · exact ((getElem?_frame .nv12 _).trans (getElem?_interleave huv' c).1).trans hu
    · rw [Layout.position, Nat.add_assoc]
      exact ((getElem?_frame .nv12 _).trans (getElem?_interleave huv' c).2).trans hv
  | nv21 =>
    refine (readChroma_interleaved uvSize (by decide) (by simp only [Layout.position]; omega)
      ?_ ?_).trans rfl
    · exact ((getElem?_frame .nv21 _).trans (getElem?_interleave huv'.symm c).1).trans hv
    · rw [Layout.position, Nat.add_assoc]
      exact ((getElem?_frame .nv21 _).trans (getElem?_interleave huv'.symm c).2).trans hu

theorem yuv420Column_eq {type : YuvType} {src : List UInt8} {uvSize : UInt32} {i : ℕ} {s : RgbState}
    {y : UInt8} {temps : ℤ × ℤ × ℤ} {uvp : ℤ} (hy : src[s.yp.toNat]? = some y)
    (hyp : 3 * s.yp.toNat + 2 < 2 ^ 32)
    (heven : i % 2 = 0 → ∃ u v, readChroma type src uvSize s.uvp = some (u, v, uvp) ∧
      chromaTemps u v = temps)
    (hodd : i % 2 = 1 → s.temps = some temps ∧ s.uvp = uvp) :
    yuv420Column type src uvSize i s =
      (copyInto s.dst (3 * s.yp.toNat) (colours y temps)).map fun dst =>
        { yp := s.yp + 1, uvp, temps := some temps, dst } := by
  have hcolumn : columnTemps type src uvSize i s = some (some temps, uvp) := by
    unfold columnTemps
    obtain hi | hi := Nat.mod_two_eq_zero_or_one i
    · obtain ⟨u, v, hchroma, htemps⟩ := heven hi
      rw [if_pos hi, hchroma, ← htemps]
      rfl
    · obtain ⟨htemps, huvp⟩ := hodd hi
      have hne : ¬ i % 2 = 0 := by omega
      rw [if_neg hne, htemps, huvp]
  rw [yuv420Column, hy, hcolumn]
  simp only [Option.bind_eq_bind, Option.bind_some, writePixel_eq hyp]
  rw [Option.map_eq_bind]
  rfl

/-- The state in front of a column: the picture up to it is written, `uvp` stands in front of the
next colours, and in an odd column the sums are those of the column before. -/
structure Layout.AtColumn (layout : Layout) (p : Planes w h) (dst : List UInt8) (j i : ℕ)
    (s : RgbState) : Prop where
  yp : s.yp.toNat = j * w + i
  uvp : s.uvp = layout.position (w * h) (j / 2 * (w / 2) + (i + 1) / 2)
  temps : i % 2 = 1 → s.temps =
    some (chromaTemps (chroma (p.u.getD (j / 2 * (w / 2) + i / 2) 0))
      (chroma (p.v.getD (j / 2 * (w / 2) + i / 2) 0)))
  dst : s.dst = p.picture (j * w + i) ++ dst.drop (3 * (j * w + i))

theorem chroma_lt {j i : ℕ} (hj : j < h) (hi : i < w) (hw : w % 2 = 0) (hh : h % 2 = 0) :
    j / 2 * (w / 2) + i / 2 < w / 2 * (h / 2) := by
  have hj' : j / 2 + 1 ≤ h / 2 := by omega
  have hi' : i / 2 < w / 2 := by omega
  calc j / 2 * (w / 2) + i / 2 < (j / 2 + 1) * (w / 2) := by
        rw [Nat.succ_mul]
        omega
    _ ≤ w / 2 * (h / 2) := by
        rw [Nat.mul_comm (w / 2)]
        exact Nat.mul_le_mul_right _ hj'

theorem pixel_lt {j i : ℕ} (hj : j < h) (hi : i < w) : j * w + i < w * h := by
  calc j * w + i < (j + 1) * w := by
        rw [Nat.succ_mul]
        omega
    _ ≤ w * h := by
        rw [Nat.mul_comm w]
        exact Nat.mul_le_mul_right _ hj

theorem Planes.pixel_div_mod {j i : ℕ} (hi : i < w) :
    p.pixel ((j * w + i) / w) ((j * w + i) % w) = p.pixel j i := by
  have hw : 0 < w := Nat.zero_lt_of_lt hi
  rw [Nat.mul_comm, Nat.mul_add_div hw, Nat.div_eq_of_lt hi, Nat.mul_add_mod, Nat.mod_eq_of_lt hi,
    Nat.add_zero]

theorem exists_yuv420Column {uvSize : UInt32} {dst : List UInt8} {j i : ℕ} {s : RgbState}
    (hw : w % 2 = 0) (hh : h % 2 = 0) (hlt : w * h * 3 < 2 ^ 31)
    (huv : uvSize.toNat = w / 2 * (h / 2)) (hdst : dst.length = w * h * 3) (hj : j < h) (hi : i < w)
    (hs : layout.AtColumn p dst j i s) :
    ∃ t, yuv420Column layout.type (layout.frame p) uvSize i s = some t ∧
      layout.AtColumn p dst j (i + 1) t := by
  have hpixel := pixel_lt hj hi
  have hc := chroma_lt hj hi hw hh
  have hquarter : 2 * (w / 2 * (h / 2)) ≤ w * h := by
    calc 2 * (w / 2 * (h / 2)) = w / 2 * 2 * (h / 2) := by ring
      _ ≤ w * h := Nat.mul_le_mul (Nat.div_mul_le_self w 2) (Nat.div_le_self h 2)
  have hy : (layout.frame p)[s.yp.toNat]? = some (p.y.getD (j * w + i) 0) := by
    rw [hs.yp]
    exact getElem?_frame_y layout hpixel
  -- the colours of the column, read here or one column before
  set c := j / 2 * (w / 2) + i / 2 with hcdef
  have heven (heven : i % 2 = 0) : ∃ u v, readChroma layout.type (layout.frame p) uvSize s.uvp =
      some (u, v, (layout.position (w * h) (j / 2 * (w / 2) + (i + 1 + 1) / 2) : ℤ)) ∧
      chromaTemps u v = chromaTemps (chroma (p.u.getD c 0)) (chroma (p.v.getD c 0)) := by
    have hnext : j / 2 * (w / 2) + (i + 1 + 1) / 2 = c + 1 := by omega
    have hthis : j / 2 * (w / 2) + (i + 1) / 2 = c := by omega
    refine ⟨_, _, ?_, rfl⟩
    rw [hs.uvp, hthis, hnext]
    exact readChroma_frame layout huv (by omega) hc
  have hodd (hodd : i % 2 = 1) : s.temps =
      some (chromaTemps (chroma (p.u.getD c 0)) (chroma (p.v.getD c 0))) ∧
      s.uvp = layout.position (w * h) (j / 2 * (w / 2) + (i + 1 + 1) / 2) := by
    have hsame : (i + 1 + 1) / 2 = (i + 1) / 2 := by omega
    rw [hsame]
    exact ⟨hs.temps hodd, hs.uvp⟩
  have hcolumn := yuv420Column_eq hy (by rw [hs.yp]; omega) heven hodd
  have hroom : 3 * (j * w + i) + 3 ≤ dst.length := by omega
  have hwrite := copyInto_pixels (f := fun k => p.pixel (k / w) (k % w)) (fun _ => rfl) hroom
  rw [p.pixel_div_mod hi] at hwrite
  rw [colours_chromaTemps, hs.dst, hs.yp] at hcolumn
  replace hcolumn := hcolumn.trans (congrArg _ hwrite)
  refine ⟨_, hcolumn, ?_, rfl, fun hodd => ?_, rfl⟩
  · dsimp only
    rw [UInt32.toNat_add, hs.yp, UInt32.toNat_one]
    exact Nat.mod_eq_of_lt (by omega)
  · have hsame : (i + 1) / 2 = i / 2 := by omega
    dsimp only
    rw [hcdef, hsame]

structure Layout.AtRow (p : Planes w h) (dst : List UInt8) (j : ℕ) (s : RgbState) : Prop where
  yp : s.yp.toNat = j * w
  dst : s.dst = p.picture (j * w) ++ dst.drop (3 * (j * w))

variable {layout} in
theorem type_of_interleaved (h : layout.Interleaved) :
    ¬ (layout.type = YUV_TYPE_I420 ∨ layout.type = YUV_TYPE_YU12) := by
  obtain rfl | rfl := h <;> decide

variable {layout} in
theorem type_of_not (h : ¬ layout.Interleaved) :
    layout.type = YUV_TYPE_I420 ∨ layout.type = YUV_TYPE_YU12 := by
  cases layout with
  | i420 => exact .inl rfl
  | yu12 => exact .inr rfl
  | nv12 => exact absurd (.inl rfl) h
  | nv21 => exact absurd (.inr rfl) h

theorem toNat_rowOffset {frameSize step : UInt32} {j : ℕ} (hj : j < 2 ^ 32)
    (hlt : frameSize.toNat + j / 2 * step.toNat < 2 ^ 32) :
    (frameSize + (UInt32.ofNat j >>> 1) * step).toNat = frameSize.toNat + j / 2 * step.toNat := by
  have hhalf : (UInt32.ofNat j >>> 1).toNat = j / 2 := by
    rw [UInt32.toNat_shiftRight, toNat_ofNat hj]
    rfl
  rw [UInt32.toNat_add, UInt32.toNat_mul, hhalf,
    Nat.mod_eq_of_lt (a := j / 2 * step.toNat) (by omega),
    Nat.mod_eq_of_lt hlt]

theorem rowStart_natCast {width frameSize : UInt32} {j : ℕ} (hwidth : width.toNat = w)
    (hframe : frameSize.toNat = w * h) (hlt : w * h * 3 < 2 ^ 32) (hheight : h < 2 ^ 32)
    (hj : j < h) :
    rowStart layout.type width frameSize j =
      (w * h + if layout.Interleaved then j / 2 * w else j / 2 * (w / 2) : ℕ) := by
  have hrow : 2 * (j / 2 * w) ≤ w * h := by
    calc 2 * (j / 2 * w) = w * (j / 2 * 2) := by ring
      _ ≤ w * h := Nat.mul_le_mul_left _ (by omega)
  have hrow' : j / 2 * (w / 2) ≤ j / 2 * w := Nat.mul_le_mul_left _ (Nat.div_le_self w 2)
  have hhalf : (width >>> 1).toNat = w / 2 := by
    rw [UInt32.toNat_shiftRight, hwidth]
    rfl
  by_cases hlayout : layout.Interleaved
  · rw [rowStart, if_neg (type_of_interleaved hlayout), if_pos hlayout,
      toNat_rowOffset (by omega) (by rw [hframe, hwidth]; omega), hframe, hwidth,
      CInt.toInt_of_lt (by omega) (by omega)]
  · rw [rowStart, if_pos (type_of_not hlayout), if_neg hlayout,
      toNat_rowOffset (by omega) (by rw [hframe, hhalf]; omega), hframe, hhalf,
      CInt.toInt_of_lt (by omega) (by omega)]

theorem rowStart_eq {width frameSize : UInt32} {j : ℕ} (hwidth : width.toNat = w)
    (hframe : frameSize.toNat = w * h) (hw : w % 2 = 0) (hlt : w * h * 3 < 2 ^ 32)
    (hheight : h < 2 ^ 32) (hj : j < h) :
    rowStart layout.type width frameSize j = layout.position (w * h) (j / 2 * (w / 2)) := by
  have hrow : j / 2 * w = 2 * (j / 2 * (w / 2)) := by
    obtain ⟨k, rfl⟩ := Nat.dvd_of_mod_eq_zero hw
    rw [Nat.mul_div_cancel_left k (by decide)]
    ring
  rw [rowStart_natCast layout hwidth hframe hlt hheight hj, hrow]
  cases layout <;> rfl

end Picture

section Convert

variable {width height : UInt32} (p : Planes width.toNat height.toNat)

theorem toNat_size (hlt : width.toNat * height.toNat * 3 < 2 ^ 31) :
    (width * height).toNat = width.toNat * height.toNat := by
  rw [UInt32.toNat_mul]
  exact Nat.mod_eq_of_lt (by omega)

theorem quarter_eq {w h : ℕ} (hw : w % 2 = 0) (hh : h % 2 = 0) :
    w * h / 4 = w / 2 * (h / 2) ∧ w * h = 4 * (w / 2 * (h / 2)) := by
  obtain ⟨a, rfl⟩ := Nat.dvd_of_mod_eq_zero hw
  obtain ⟨b, rfl⟩ := Nat.dvd_of_mod_eq_zero hh
  have hfour : 2 * a * (2 * b) = 4 * (a * b) := by ring
  rw [Nat.mul_div_cancel_left a (by decide), Nat.mul_div_cancel_left b (by decide), hfour]
  exact ⟨Nat.mul_div_cancel_left _ (by decide), rfl⟩

theorem exists_yuv420Row (layout : Layout) {dst : List UInt8} {j : ℕ} {s : RgbState}
    (hw : width.toNat % 2 = 0) (hh : height.toNat % 2 = 0)
    (hlt : width.toNat * height.toNat * 3 < 2 ^ 31)
    (hdst : dst.length = width.toNat * height.toNat * 3) (hj : j < height.toNat)
    (hs : Layout.AtRow p dst j s) :
    ∃ t, yuv420Row layout.type width (width * height) (layout.frame p) j s = some t ∧
      Layout.AtRow p dst (j + 1) t := by
  have hframe := toNat_size hlt
  have huv : (width * height / 4).toNat = width.toNat / 2 * (height.toNat / 2) := by
    rw [UInt32.toNat_div, hframe]
    exact (quarter_eq hw hh).1
  have hstart : layout.AtColumn p dst j 0
      { s with uvp := rowStart layout.type width (width * height) j } :=
    ⟨hs.yp, rowStart_eq layout rfl hframe hw (by omega) height.toNat_lt hj,
      fun hodd => absurd hodd (by decide), hs.dst⟩
  obtain ⟨t, hrun, ht⟩ := exists_forLoop (I := layout.AtColumn p dst j) hstart
    fun i hi s hs => exists_yuv420Column layout hw hh hlt huv hdst hj hi hs
  have hnext : (j + 1) * width.toNat = j * width.toNat + width.toNat := Nat.succ_mul _ _
  exact ⟨t, hrun, by rw [ht.yp, hnext], by rw [ht.dst, hnext]⟩

theorem yuv420ToRgb_eq (layout : Layout) {dst : List UInt8} (hw : width.toNat % 2 = 0)
    (hh : height.toNat % 2 = 0) (hlt : width.toNat * height.toNat * 3 < 2 ^ 31)
    (hdst : dst.length = width.toNat * height.toNat * 3) :
    yuv420ToRgb layout.type width height (layout.frame p) dst =
      some (p.picture (width.toNat * height.toNat)) := by
  have hstart : Layout.AtRow p dst 0 { yp := 0, uvp := 0, temps := none, dst } :=
    ⟨(Nat.zero_mul _).symm, by rw [Nat.zero_mul]; rfl⟩
  obtain ⟨t, hrun, ht⟩ := exists_forLoop (I := Layout.AtRow p dst) hstart
    fun j hj s hs => exists_yuv420Row p layout hw hh hlt hdst hj hs
  have htype : ¬ (layout.type = YUV_TYPE_420_MAX ∨ layout.type = YUV_TYPE_422_MAX) := by
    cases layout <;> decide
  have hend : dst.drop (3 * (height.toNat * width.toNat)) = [] :=
    List.drop_eq_nil_of_le (by rw [hdst, Nat.mul_comm height.toNat]; omega)
  rw [yuv420ToRgb, if_neg htype, hrun, Option.map_some, ht.dst, hend, List.append_nil,
    Nat.mul_comm height.toNat]

/-- The four layouts give the same bytes, and at each pixel those of its brightness and colours. -/
theorem yuv420ToRgb_layouts (dst : List UInt8) (hw : width.toNat % 2 = 0)
    (hh : height.toNat % 2 = 0) (hlt : width.toNat * height.toNat * 3 < 2 ^ 31)
    (hdst : dst.length = width.toNat * height.toNat * 3) :
    ∃ bytes : List UInt8, bytes.length = width.toNat * height.toNat * 3 ∧
      (∀ layout : Layout,
        yuv420ToRgb layout.type width height (layout.frame p) dst = some bytes) ∧
      ∀ j < height.toNat, ∀ i < width.toNat,
        (bytes.drop (3 * (j * width.toNat + i))).take 3 =
          rgb (p.y.getD (j * width.toNat + i) 0)
            (p.u.getD (j / 2 * (width.toNat / 2) + i / 2) 0)
            (p.v.getD (j / 2 * (width.toNat / 2) + i / 2) 0) := by
  refine ⟨p.picture (width.toNat * height.toNat), ?_, fun layout => ?_, fun j hj i hi => ?_⟩
  · rw [p.length_picture, Nat.mul_comm]
  · exact yuv420ToRgb_eq p layout hw hh hlt hdst
  · rw [Planes.picture, take_drop_pixels (fun _ => rfl) (pixel_lt hj hi), p.pixel_div_mod hi]
    rfl

/-- Two rows of two pixels. -/
def square : Planes 2 2 where
  y := [16, 81, 145, 235]
  u := [90]
  v := [240]
  length_y := rfl
  length_u := rfl
  length_v := rfl

theorem yuv420ToRgb_layouts_square : ∃ bytes : List UInt8, bytes.length = 12 ∧
    (∀ layout : Layout,
      yuv420ToRgb layout.type 2 2 (layout.frame square) (List.replicate 12 0) = some bytes) ∧
    ∀ j < 2, ∀ i < 2, (bytes.drop (3 * (j * 2 + i))).take 3 =
      rgb (square.y.getD (j * 2 + i) 0) (square.u.getD (j / 2 * (2 / 2) + i / 2) 0)
        (square.v.getD (j / 2 * (2 / 2) + i / 2) 0) :=
  @yuv420ToRgb_layouts 2 2 square (List.replicate 12 0) (by decide) (by decide) (by decide) rfl

end Convert

end Mbtk.Yuv
