import ShaderReflect.Enumerant

/-!
# Images

What the declaration of an image type says besides the type of a texel component. The dimension and
the format are enumerants (specification, 4.1), so an image with a number that is not listed here is
refused as unsupported, the dimension before the format.

Whether an image is a depth image, and whether it is sampled or a storage image, may be left open by
the binary; a number that is neither yes nor no leaves it open as well.
-/

namespace ShaderReflect

/-- The dimensionality of an image. -/
inductive Dimension
  | dim1D | dim2D | dim3D | cube | rect | buffer | subpassData | tileImageData
deriving DecidableEq, Repr

instance : Enumerant Dimension where
  all := [
    .dim1D, .dim2D, .dim3D, .cube, .rect, .buffer, .subpassData, .tileImageData]
  code
    | .dim1D => 0 | .dim2D => 1 | .dim3D => 2 | .cube => 3 | .rect => 4 | .buffer => 5
    | .subpassData => 6 | .tileImageData => 4173
  name
    | .dim1D => "Dim1D" | .dim2D => "Dim2D" | .dim3D => "Dim3D" | .cube => "Cube"
    | .rect => "Rect" | .buffer => "Buffer" | .subpassData => "SubpassData"
    | .tileImageData => "TileImageData"

/-- The format of a texel. -/
inductive ImageFormat
  | unknown | rgba32f | rgba16f | r32f | rgba8 | rgba8Snorm | rg32f | rg16f | r11fG11fB10f
  | r16f | rgba16 | rgb10A2 | rg16 | rg8 | r16 | r8 | rgba16Snorm | rg16Snorm | rg8Snorm
  | r16Snorm | r8Snorm | rgba32i | rgba16i | rgba8i | r32i | rg32i | rg16i | rg8i | r16i | r8i
  | rgba32ui | rgba16ui | rgba8ui | r32ui | rgb10a2ui | rg32ui | rg16ui | rg8ui | r16ui | r8ui
  | r64ui | r64i
deriving DecidableEq, Repr

instance : Enumerant ImageFormat where
  all := [
    .unknown, .rgba32f, .rgba16f, .r32f, .rgba8, .rgba8Snorm, .rg32f, .rg16f, .r11fG11fB10f,
    .r16f, .rgba16, .rgb10A2, .rg16, .rg8, .r16, .r8, .rgba16Snorm, .rg16Snorm, .rg8Snorm,
    .r16Snorm, .r8Snorm, .rgba32i, .rgba16i, .rgba8i, .r32i, .rg32i, .rg16i, .rg8i, .r16i, .r8i,
    .rgba32ui, .rgba16ui, .rgba8ui, .r32ui, .rgb10a2ui, .rg32ui, .rg16ui, .rg8ui, .r16ui, .r8ui,
    .r64ui, .r64i]
  code
    | .unknown => 0 | .rgba32f => 1 | .rgba16f => 2 | .r32f => 3 | .rgba8 => 4 | .rgba8Snorm => 5
    | .rg32f => 6 | .rg16f => 7 | .r11fG11fB10f => 8 | .r16f => 9 | .rgba16 => 10
    | .rgb10A2 => 11 | .rg16 => 12 | .rg8 => 13 | .r16 => 14 | .r8 => 15 | .rgba16Snorm => 16
    | .rg16Snorm => 17 | .rg8Snorm => 18 | .r16Snorm => 19 | .r8Snorm => 20 | .rgba32i => 21
    | .rgba16i => 22 | .rgba8i => 23 | .r32i => 24 | .rg32i => 25 | .rg16i => 26 | .rg8i => 27
    | .r16i => 28 | .r8i => 29 | .rgba32ui => 30 | .rgba16ui => 31 | .rgba8ui => 32
    | .r32ui => 33 | .rgb10a2ui => 34 | .rg32ui => 35 | .rg16ui => 36 | .rg8ui => 37
    | .r16ui => 38 | .r8ui => 39 | .r64ui => 40 | .r64i => 41
  name
    | .unknown => "Unknown" | .rgba32f => "Rgba32f" | .rgba16f => "Rgba16f" | .r32f => "R32f"
    | .rgba8 => "Rgba8" | .rgba8Snorm => "Rgba8Snorm" | .rg32f => "Rg32f" | .rg16f => "Rg16f"
    | .r11fG11fB10f => "R11fG11fB10f" | .r16f => "R16f" | .rgba16 => "Rgba16"
    | .rgb10A2 => "Rgb10A2" | .rg16 => "Rg16" | .rg8 => "Rg8" | .r16 => "R16" | .r8 => "R8"
    | .rgba16Snorm => "Rgba16Snorm" | .rg16Snorm => "Rg16Snorm" | .rg8Snorm => "Rg8Snorm"
    | .r16Snorm => "R16Snorm" | .r8Snorm => "R8Snorm" | .rgba32i => "Rgba32i"
    | .rgba16i => "Rgba16i" | .rgba8i => "Rgba8i" | .r32i => "R32i" | .rg32i => "Rg32i"
    | .rg16i => "Rg16i" | .rg8i => "Rg8i" | .r16i => "R16i" | .r8i => "R8i"
    | .rgba32ui => "Rgba32ui" | .rgba16ui => "Rgba16ui" | .rgba8ui => "Rgba8ui"
    | .r32ui => "R32ui" | .rgb10a2ui => "Rgb10a2ui" | .rg32ui => "Rg32ui" | .rg16ui => "Rg16ui"
    | .rg8ui => "Rg8ui" | .r16ui => "R16ui" | .r8ui => "R8ui" | .r64ui => "R64ui"
    | .r64i => "R64i"

/-- The form of an image. -/
structure ImageForm where
  dimension : Dimension
  /-- Absent if the binary does not tell whether it is a depth image. -/
  isDepth : Option Bool
  isArray : Bool
  isMultisampled : Bool
  /-- True of sampled images, false of storage images, absent if it is only known when used. -/
  isSampled : Option Bool
  format : ImageFormat
deriving DecidableEq, Repr

end ShaderReflect
