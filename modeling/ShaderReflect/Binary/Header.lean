import ShaderReflect.Binary.ByteOrder

/-!
# The header of a binary

A binary starts with five words: the magic number, the version, the number of its generator, the ID
bound and the schema (specification, 4.1). `Header.read` checks them in this order, after the
length, and what it finds first is the fault:

* less than five words, another magic number, bits in the version word beyond those of the two
  numbers, and a bound of zero are corruptions;
* a version that is not `1.0` to `1.6` is not supported.

The generator and the schema may be anything, and are kept as they are. The version is kept as two
numbers; each of them has eight bits in the version word. What follows the header is the body.
-/

namespace ShaderReflect

/-- The first five words of a binary. -/
structure Header where
  magic : Word
  major : Nat
  minor : Nat
  generator : Word
  /-- All IDs in the binary are less than this. -/
  bound : Word
  schema : Word
deriving DecidableEq, Repr

namespace Header

/-- The one supported major version. -/
def supportedMajor : Nat := 1

/-- The highest supported minor version. -/
def maxMinor : Nat := 6

/-- The bits of the version word that belong to no part of the version. -/
def versionPadding : Word := 0xFF0000FF

/-- Check the header of a binary; what follows it is the body. -/
def read : List Word → Except Fault (Header × List Word)
  | magic :: version :: generator :: bound :: schema :: body => do
    if magic ≠ magicNumber then
      throw (.corrupted (.magic magic))
    if version &&& versionPadding ≠ 0 then
      throw (.corrupted (.versionWord version))
    let major := version.toNat / 0x10000 % 0x100
    let minor := version.toNat / 0x100 % 0x100
    if major ≠ supportedMajor ∨ minor > maxMinor then
      throw (.unsupported (.version major minor))
    if bound = 0 then
      throw (.corrupted .zeroBound)
    return ({ magic, major, minor, generator, bound, schema }, body)
  | _ => throw (.corrupted .shortHeader)

end Header

end ShaderReflect
