import Mbtk.Yuv.Layouts

namespace Mbtk.Yuv

open Lib MString YuvType

def memcpy (dst src : List UInt8) (offset n : ℕ) : Option (List UInt8) :=
  if offset + n ≤ src.length then copyInto dst 0 ((src.drop offset).take n) else none

/-- The three arrays and the three lengths that `yuv_data_parse` stores to. -/
structure PlaneData where
  yData : List UInt8
  uData : List UInt8
  vData : List UInt8
  yDataLen : UInt32
  uDataLen : UInt32
  vDataLen : UInt32

/-- A turn of the two loops: a byte for each of the arrays, at indices one behind the other. -/
def takeApartTurn (data : List UInt8) (offset k : ℕ) (s : List UInt8 × List UInt8) :
    Option (List UInt8 × List UInt8) := do
  let a ← data[offset + 2 * k]?
  let first ← copyInto s.1 (2 * k) [a]
  let b ← data[offset + 2 * k + 1]?
  let second ← copyInto s.2 (2 * k + 1) [b]
  return (first, second)

/-- The loop of the layouts with both colours in one plane, up to index `n`. -/
def takeApart (data : List UInt8) (offset n : ℕ) (first second : List UInt8) :
    Option (List UInt8 × List UInt8) :=
  forLoop (takeApartTurn data offset) (first, second) ((n + 1) / 2)

def yuvDataParse (data : List UInt8) (type : YuvType) (width height : UInt32) (out : PlaneData) :
    Option (ℤ × PlaneData) :=
  let widthHeight := width * height
  let quarter := widthHeight / 4
  match type with
  | YUV_TYPE_422_MAX => some (-1, out)
  | YUV_TYPE_420_MAX => some (0, out)
  | YUV_TYPE_I420 => do
    let yData ← memcpy out.yData data 0 widthHeight.toNat
    let uData ← memcpy out.uData data widthHeight.toNat quarter.toNat
    let vData ← memcpy out.vData data (widthHeight * 5 / 4).toNat quarter.toNat
    return (0, ⟨yData, uData, vData, widthHeight, quarter, quarter⟩)
  | YUV_TYPE_YU12 => do
    let yData ← memcpy out.yData data 0 widthHeight.toNat
    let uData ← memcpy out.uData data (widthHeight * 5 / 4).toNat quarter.toNat
    let vData ← memcpy out.vData data widthHeight.toNat quarter.toNat
    return (0, ⟨yData, uData, vData, widthHeight, quarter, quarter⟩)
  | YUV_TYPE_NV12 => do
    let yData ← memcpy out.yData data 0 widthHeight.toNat
    let (uData, vData) ←
      takeApart data widthHeight.toNat (widthHeight / 2).toNat out.uData out.vData
    return (0, ⟨yData, uData, vData, widthHeight, quarter, quarter⟩)
  | YUV_TYPE_NV21 => do
    let yData ← memcpy out.yData data 0 widthHeight.toNat
    let (vData, uData) ←
      takeApart data widthHeight.toNat (widthHeight / 2).toNat out.vData out.uData
    return (0, ⟨yData, uData, vData, widthHeight, quarter, quarter⟩)

/-- The arrays as `main` allocates them. -/
def PlaneData.Allocated (out : PlaneData) (size : ℕ) : Prop :=
  out.yData.length = size ∧ out.uData.length = size ∧ out.vData.length = size

/-- The planes and their lengths are stored. -/
structure PlaneData.Holds {w h : ℕ} (out : PlaneData) (p : Planes w h) : Prop where
  yDataLen : out.yDataLen.toNat = w * h
  uDataLen : out.uDataLen.toNat = w * h / 4
  vDataLen : out.vDataLen.toNat = w * h / 4
  yData : out.yData.take (w * h) = p.y
  uData : out.uData.take (w * h / 4) = p.u
  vData : out.vData.take (w * h / 4) = p.v

/-- Whatever the arrays held before, the planes come out of their frame. -/
def Layout.Extracts (layout : Layout) {width height : UInt32}
    (p : Planes width.toNat height.toNat) : Prop :=
  ∀ out : PlaneData, out.Allocated (width.toNat * height.toNat) →
    ∃ out', yuvDataParse (layout.frame p) layout.type width height out = some (0, out') ∧
      out'.Holds p

section Extract

variable {width height : UInt32} {p : Planes width.toNat height.toNat} {layout : Layout}
  {out : PlaneData}

theorem memcpy_eq {a xs b dst src : List UInt8} {offset n : ℕ} (hsrc : src = a ++ (xs ++ b))
    (hoffset : offset = a.length) (hn : n = xs.length) (h : xs.length ≤ dst.length) :
    memcpy dst src offset n = some (xs ++ dst.drop xs.length) := by
  rw [hsrc, hoffset, hn, memcpy, if_pos (by rw [List.length_append, List.length_append]; omega),
    List.drop_left, List.take_left, copyInto_zero h]

theorem head_takeApart {data first second : List UInt8} {offset n : ℕ}
    {s : List UInt8 × List UInt8} {x : UInt8} (hx : second[0]? = some x)
    (h : takeApart data offset n first second = some s) : s.2[0]? = some x := by
  refine of_forLoop (I := fun _ s => s.2[0]? = some x) h hx fun k _ s t hs hturn => ?_
  obtain ⟨a, -, hturn⟩ := Option.bind_eq_some_iff.mp hturn
  obtain ⟨first', -, hturn⟩ := Option.bind_eq_some_iff.mp hturn
  obtain ⟨b, -, hturn⟩ := Option.bind_eq_some_iff.mp hturn
  obtain ⟨second', hcopy, hturn⟩ := Option.bind_eq_some_iff.mp hturn
  rw [← Option.some.inj hturn]
  unfold copyInto at hcopy
  split_ifs at hcopy with hle
  have hpos : 0 < (s.2.take (2 * k + 1)).length := by
    rw [List.length_take]
    rw [List.length_singleton] at hle
    omega
  rw [← Option.some.inj hcopy, List.append_assoc, List.getElem?_append_left hpos,
    List.getElem?_take_of_lt (by omega), hs]

theorem toNat_offsets (hw : width.toNat % 2 = 0) (hh : height.toNat % 2 = 0)
    (hlt : width.toNat * height.toNat * 3 < 2 ^ 31) {xs : List UInt8}
    (hxs : xs.length = width.toNat / 2 * (height.toNat / 2)) :
    (width * height).toNat = p.y.length ∧ (width * height / 4).toNat = xs.length ∧
      (width * height * 5 / 4).toNat = (p.y ++ xs).length := by
  have hsize := toNat_size hlt
  obtain ⟨hquarter, hfour⟩ := quarter_eq hw hh
  refine ⟨hsize.trans p.length_y.symm, ?_, ?_⟩
  · rw [UInt32.toNat_div, hsize, hxs]
    exact hquarter
  · rw [List.length_append, p.length_y, hxs, UInt32.toNat_div, UInt32.toNat_mul, hsize]
    change width.toNat * height.toNat * 5 % 2 ^ 32 / 4 = _
    omega

theorem holds_append (hw : width.toNat % 2 = 0) (hh : height.toNat % 2 = 0)
    (hlt : width.toNat * height.toNat * 3 < 2 ^ 31) (ys us vs : List UInt8) :
    PlaneData.Holds ⟨p.y ++ ys, p.u ++ us, p.v ++ vs, width * height, width * height / 4,
      width * height / 4⟩ p := by
  have hsize := toNat_size hlt
  obtain ⟨hquarter, -⟩ := quarter_eq hw hh
  have hlen : (width * height / 4).toNat = width.toNat * height.toNat / 4 := by
    rw [UInt32.toNat_div, hsize]
    rfl
  refine ⟨hsize, hlen, hlen, List.take_left' p.length_y, List.take_left' ?_, List.take_left' ?_⟩
  · rw [hquarter, p.length_u]
  · rw [hquarter, p.length_v]

theorem extracts_planes (hw : width.toNat % 2 = 0) (hh : height.toNat % 2 = 0)
    (hlt : width.toNat * height.toNat * 3 < 2 ^ 31) (hlayout : layout = .i420 ∨ layout = .yu12) :
    layout.Extracts p := by
  rintro out ⟨hy, hu, hv⟩
  obtain ⟨hoffset, hulen, huoffset⟩ := toNat_offsets (p := p) hw hh hlt p.length_u
  obtain ⟨-, hvlen, hvoffset⟩ := toNat_offsets (p := p) hw hh hlt p.length_v
  obtain ⟨hquarter, hfour⟩ := quarter_eq hw hh
  have hyroom : p.y.length ≤ out.yData.length := by rw [hy, p.length_y]
  have huroom : p.u.length ≤ out.uData.length := by rw [hu, p.length_u]; omega
  have hvroom : p.v.length ≤ out.vData.length := by rw [hv, p.length_v]; omega
  refine ⟨_, ?_, holds_append hw hh hlt (out.yData.drop p.y.length) (out.uData.drop p.u.length)
    (out.vData.drop p.v.length)⟩
  obtain rfl | rfl := hlayout
  · have hend : Layout.i420.frame p = p.y ++ p.u ++ (p.v ++ []) := by
      rw [List.append_nil, List.append_assoc]
      rfl
    have hycopy : memcpy out.yData (Layout.i420.frame p) 0 _ = some _ :=
      memcpy_eq (a := []) rfl rfl hoffset hyroom
    have hucopy : memcpy out.uData (Layout.i420.frame p) _ _ = some _ :=
      memcpy_eq rfl hoffset hulen huroom
    have hvcopy := memcpy_eq hend huoffset hvlen hvroom
    rw [Layout.type, yuvDataParse]
    simp only [hycopy, hucopy, hvcopy, Option.bind_eq_bind, Option.bind_some]
    rfl
  · have hend : Layout.yu12.frame p = p.y ++ p.v ++ (p.u ++ []) := by
      rw [List.append_nil, List.append_assoc]
      rfl
    have hycopy : memcpy out.yData (Layout.yu12.frame p) 0 _ = some _ :=
      memcpy_eq (a := []) rfl rfl hoffset hyroom
    have hvcopy : memcpy out.vData (Layout.yu12.frame p) _ _ = some _ :=
      memcpy_eq rfl hoffset hvlen hvroom
    have hucopy := memcpy_eq hend hvoffset hulen huroom
    rw [Layout.type, yuvDataParse]
    simp only [hycopy, hucopy, hvcopy, Option.bind_eq_bind, Option.bind_some]
    rfl

theorem extracts_empty (hlt : width.toNat * height.toNat * 3 < 2 ^ 31)
    (hzero : width.toNat * height.toNat = 0) (hlayout : layout = .nv12 ∨ layout = .nv21)
    (hu : p.u = []) (hv : p.v = []) : layout.Extracts p := by
  rintro out ⟨hy, -, -⟩
  have hsize : width * height = 0 := by
    rw [← UInt32.toNat_inj, toNat_size hlt, hzero]
    rfl
  have hynil : p.y = [] := List.length_eq_zero_iff.mp (p.length_y.trans hzero)
  have hframe : layout.frame p = [] ++ ([] ++ layout.frame p) := rfl
  have hycopy : memcpy out.yData (layout.frame p) 0 (0 : UInt32).toNat = some out.yData :=
    memcpy_eq hframe rfl rfl (Nat.zero_le _)
  refine ⟨⟨out.yData, out.uData, out.vData, 0, 0, 0⟩, ?_, ?_⟩
  · obtain rfl | rfl := hlayout
    · rw [Layout.type, yuvDataParse, hsize]
      simp only [hycopy, Option.bind_eq_bind, Option.bind_some]
      rfl
    · rw [Layout.type, yuvDataParse, hsize]
      simp only [hycopy, Option.bind_eq_bind, Option.bind_some]
      rfl
  · constructor
    case yData => rw [hzero, hynil, List.take_zero]
    case uData => rw [hzero, hu, List.take_zero]
    case vData => rw [hzero, hv, List.take_zero]
    all_goals
      rw [hzero]
      rfl

theorem take_takeApart_ne {data first xs : List UInt8} {offset n m size : ℕ} {x : UInt8}
    {s : List UInt8 × List UInt8} (hsize : 0 < size)
    (h : takeApart data offset n first (List.replicate size (x + 1)) = some s) :
    s.2.take m ≠ x :: xs := by
  intro htake
  have hhead : (List.replicate size (x + 1))[0]? = some (x + 1) := by
    rw [List.getElem?_replicate, if_pos hsize]
  have hkept := head_takeApart hhead h
  have hpos : 0 < m := by
    by_contra hm
    rw [Nat.eq_zero_of_not_pos hm, List.take_zero] at htake
    cases htake
  have hfirst := List.getElem?_take_of_lt (l := s.2) hpos
  rw [htake, hkept] at hfirst
  have hne : x + 1 ≠ x := by simp
  exact hne (Option.some.inj hfirst).symm

theorem not_extracts (hcolours : 0 < width.toNat / 2 * (height.toNat / 2))
    (hlayout : layout = .nv12 ∨ layout = .nv21) : ¬ layout.Extracts p := by
  intro hextracts
  have hsize : 0 < width.toNat * height.toNat := by
    obtain ⟨hw, hh⟩ := Nat.pos_iff_ne_zero.mp hcolours |> mul_ne_zero_iff.mp
    exact Nat.mul_pos (by omega) (by omega)
  obtain ⟨u, us, hu⟩ := List.exists_cons_of_length_pos (l := p.u) (by rwa [p.length_u])
  obtain ⟨v, vs, hv⟩ := List.exists_cons_of_length_pos (l := p.v) (by rwa [p.length_v])
  obtain ⟨out', hrun, hholds⟩ := hextracts
    ⟨List.replicate _ 0, List.replicate _ (u + 1), List.replicate _ (v + 1), 0, 0, 0⟩
    ⟨List.length_replicate, List.length_replicate, List.length_replicate⟩
  obtain rfl | rfl := hlayout
  · obtain ⟨yData, -, hrun⟩ := Option.bind_eq_some_iff.mp hrun
    obtain ⟨s, hapart, hrun⟩ := Option.bind_eq_some_iff.mp hrun
    have hvData := hholds.vData
    rw [← (Prod.mk.inj (Option.some.inj hrun)).2, hv] at hvData
    exact take_takeApart_ne hsize hapart hvData
  · obtain ⟨yData, -, hrun⟩ := Option.bind_eq_some_iff.mp hrun
    obtain ⟨s, hapart, hrun⟩ := Option.bind_eq_some_iff.mp hrun
    have huData := hholds.uData
    rw [← (Prod.mk.inj (Option.some.inj hrun)).2, hu] at huData
    exact take_takeApart_ne hsize hapart huData

/-- The planes come out exactly of the layouts with three planes, and of a picture without
pixels. -/
theorem extracts_iff (layout : Layout) (p : Planes width.toNat height.toNat)
    (hw : width.toNat % 2 = 0) (hh : height.toNat % 2 = 0)
    (hlt : width.toNat * height.toNat * 3 < 2 ^ 31) :
    layout.Extracts p ↔ layout = .i420 ∨ layout = .yu12 ∨ width.toNat * height.toNat = 0 := by
  obtain ⟨-, hfour⟩ := quarter_eq hw hh
  rw [← or_assoc]
  by_cases hlayout : layout = .i420 ∨ layout = .yu12
  · exact iff_of_true (extracts_planes hw hh hlt hlayout) (.inl hlayout)
  · rw [or_iff_right hlayout]
    have hlayout' : layout = .nv12 ∨ layout = .nv21 := by
      cases layout <;> simp at hlayout ⊢
    constructor
    · intro hextracts
      by_contra hsize
      exact not_extracts (by omega) hlayout' hextracts
    · intro hzero
      exact extracts_empty hlt hzero hlayout'
        (List.length_eq_zero_iff.mp (p.length_u.trans (by omega)))
        (List.length_eq_zero_iff.mp (p.length_v.trans (by omega)))

theorem extracts_square :
    (@Layout.Extracts .i420 2 2 square ∧ @Layout.Extracts .yu12 2 2 square) ∧
      ¬ @Layout.Extracts .nv12 2 2 square ∧ ¬ @Layout.Extracts .nv21 2 2 square := by
  have hsquare (layout : Layout) := @extracts_iff 2 2 layout square (by decide) (by decide)
    (by decide)
  exact ⟨⟨(hsquare .i420).mpr (.inl rfl), (hsquare .yu12).mpr (.inr (.inl rfl))⟩,
    fun h => absurd ((hsquare .nv12).mp h) (by decide),
    fun h => absurd ((hsquare .nv21).mp h) (by decide)⟩

theorem not_extracts_square : ¬ @Layout.Extracts .nv12 2 2 square :=
  not_extracts (by decide) (.inl rfl)

end Extract

end Mbtk.Yuv
