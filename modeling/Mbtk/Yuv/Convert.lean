import Mbtk.Lib.CopyInto
import Mbtk.Lib.Loop
import Mbtk.MString.Scan

/-! The conversion of a frame of YUV bytes to RGB.  What leaves an array, or the range of `int`, has
no result. -/

namespace Mbtk.Yuv

open Lib MString

/-- `yuv_type_enum`. -/
inductive YuvType where
  | YUV_TYPE_I420
  | YUV_TYPE_YU12
  | YUV_TYPE_NV12
  | YUV_TYPE_NV21
  | YUV_TYPE_420_MAX
  | YUV_TYPE_422_MAX
  deriving DecidableEq

open YuvType

def luma (y : UInt8) : ℤ :=
  let y := (y.toNat : ℤ) - 16
  if y < 0 then 0 else y

def clamp (x : ℤ) : ℤ := if x < 0 then 0 else if x > 262143 then 262143 else x

def redByte (r : ℤ) : UInt8 := (((r.toNat <<< 6) &&& 0xff0000) >>> 16).toUInt8

def greenByte (g : ℤ) : UInt8 := (((g.toNat >>> 2) &&& 0xff00) >>> 8).toUInt8

def blueByte (b : ℤ) : UInt8 := ((b.toNat >>> 10) &&& 0xff).toUInt8

def writePixel (dst : List UInt8) (yp : UInt32) (r g b : ℤ) : Option (List UInt8) := do
  let dst ← copyInto dst (yp * 3).toNat [redByte (clamp r)]
  let dst ← copyInto dst (yp * 3 + 1).toNat [greenByte (clamp g)]
  copyInto dst (yp * 3 + 2).toNat [blueByte (clamp b)]

def readAt (src : List UInt8) (i : ℤ) : Option UInt8 := if 0 ≤ i then src[i.toNat]? else none

def chroma (c : UInt8) : ℤ := (c.toNat : ℤ) - 128

/-- The variables of the loops of `yuv420_to_rgb`. -/
structure RgbState where
  yp : UInt32
  uvp : ℤ
  temps : Option (ℤ × ℤ × ℤ)
  dst : List UInt8

/-- The values of `u` and `v` at an even column, and `uvp` behind them. -/
def readChroma (type : YuvType) (src : List UInt8) (uvSize : UInt32) (uvp : ℤ) :
    Option (ℤ × ℤ × ℤ) := do
  let first ← readAt src uvp
  if type = YUV_TYPE_I420 ∨ type = YUV_TYPE_YU12 then
    let second ← src[(UInt32.ofInt uvp + uvSize).toNat]?
    let uvp ← CInt.add uvp 1
    return if type = YUV_TYPE_I420 then (chroma first, chroma second, uvp)
      else (chroma second, chroma first, uvp)
  else
    let uvp ← CInt.add uvp 1
    let second ← readAt src uvp
    let uvp ← CInt.add uvp 1
    return if type = YUV_TYPE_NV12 then (chroma first, chroma second, uvp)
      else (chroma second, chroma first, uvp)

def chromaTemps (u v : ℤ) : ℤ × ℤ × ℤ := (1634 * v, 833 * v + 400 * u, 2066 * u)

/-- The three sums at a column, and `uvp` behind it.  An odd column keeps those before it. -/
def columnTemps (type : YuvType) (src : List UInt8) (uvSize : UInt32) (i : ℕ) (s : RgbState) :
    Option (Option (ℤ × ℤ × ℤ) × ℤ) :=
  if i % 2 = 0 then
    (readChroma type src uvSize s.uvp).map fun (u, v, uvp) => (some (chromaTemps u v), uvp)
  else some (s.temps, s.uvp)

/-- The body of the inner loop of `yuv420_to_rgb`. -/
def yuv420Column (type : YuvType) (src : List UInt8) (uvSize : UInt32) (i : ℕ) (s : RgbState) :
    Option RgbState := do
  let y ← src[s.yp.toNat]?
  let y1192 := 1192 * luma y
  let (temps, uvp) ← columnTemps type src uvSize i s
  let (rTemp, gTemp, bTemp) ← temps
  let dst ← writePixel s.dst s.yp (y1192 + rTemp) (y1192 - gTemp) (y1192 + bTemp)
  return { yp := s.yp + 1, uvp, temps, dst }

def rowStart (type : YuvType) (width frameSize : UInt32) (j : ℕ) : ℤ :=
  if type = YUV_TYPE_I420 ∨ type = YUV_TYPE_YU12 then
    CInt.toInt (frameSize + (UInt32.ofNat j >>> 1) * (width >>> 1)).toNat
  else CInt.toInt (frameSize + (UInt32.ofNat j >>> 1) * width).toNat

/-- The body of the outer loop of `yuv420_to_rgb`. -/
def yuv420Row (type : YuvType) (width frameSize : UInt32) (src : List UInt8) (j : ℕ)
    (s : RgbState) : Option RgbState :=
  forLoop (yuv420Column type src (frameSize / 4)) { s with uvp := rowStart type width frameSize j }
    width.toNat

/-- `yuv420_to_rgb`, with the bytes at `dst` afterwards.  For a type that is none of the four it
returns in the first row. -/
def yuv420ToRgb (type : YuvType) (width height : UInt32) (src dst : List UInt8) :
    Option (List UInt8) :=
  if type = YUV_TYPE_420_MAX ∨ type = YUV_TYPE_422_MAX then some dst
  else (forLoop (yuv420Row type width (width * height) src)
    { yp := 0, uvp := 0, temps := none, dst } height.toNat).map RgbState.dst

end Mbtk.Yuv
