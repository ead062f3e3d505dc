import EventScript.Image

/-!
# Patches

A patch is a byte string to be written at an offset of an image. `PatchSet.compose` writes a set of
patches: it goes through them in the order of their offsets and copies the bytes between them from
the image. It fails if a patch reaches outside the image or into the patch before it.
-/

namespace EventScript

open Text

/-- Bytes to be written at an offset of an image. -/
structure Patch where
  offset : UInt32
  bytes : Bytes
  /-- What asked for the patch; it is only named in faults. -/
  producer : String
deriving DecidableEq, Repr

/-- The offset behind the last byte of the patch. -/
def Patch.stop (patch : Patch) : Nat :=
  patch.offset.toNat + patch.bytes.length

/-- Why patches cannot be written. -/
inductive PatchError where
  /-- The patch starts before `cursor`, where the patch of `previous` ends. -/
  | overlap (patch : Patch) (cursor : Nat) (previous : String)
  /-- The patch is not inside the image of `size` bytes. -/
  | outOfBounds (patch : Patch) (size : Nat)
deriving DecidableEq, Repr

/-- The text that reports the fault. -/
def PatchError.message : PatchError → String
  | .overlap patch cursor previous =>
      s!"patch at {Numeral.hex patch.offset.toNat} from `{patch.producer}` overlaps the patch " ++
        s!"from `{previous}`, which already covers up to {Numeral.hex cursor}"
  | .outOfBounds patch size =>
      s!"patch at {Numeral.hex patch.offset.toNat} ({patch.bytes.length} bytes) from " ++
        s!"`{patch.producer}` lies outside the {Numeral.hex size}-byte image; " ++
        "is it an unconverted pointer?"

/-- Patches in the order they were asked for. -/
structure PatchSet where
  patches : List Patch
deriving DecidableEq, Repr

namespace PatchSet

/-- No patches. -/
def empty : PatchSet := ⟨[]⟩

/-- Add a patch. -/
def insert (set : PatchSet) (producer : String) (offset : UInt32) (bytes : Bytes) : PatchSet :=
  ⟨set.patches ++ [⟨offset, bytes, producer⟩]⟩

/-- Add the patches of another set. -/
def append (set other : PatchSet) : PatchSet :=
  ⟨set.patches ++ other.patches⟩

/-- The number of patches. -/
def size (set : PatchSet) : Nat := set.patches.length

/-- The number of bytes of all patches. -/
def totalBytes (set : PatchSet) : Nat :=
  set.patches.foldl (fun total patch => total + patch.bytes.length) 0

/-- The patches in increasing order of their offsets; patches with one offset stay in order. -/
def sorted (set : PatchSet) : List Patch :=
  set.patches.mergeSort fun first second => first.offset ≤ second.offset

/-- The image from `cursor` on with patches written to it. They are given in increasing order of
their offsets, and `previous` asked for the patch that ends at the cursor. -/
def composeFrom (base : Bytes) (cursor : Nat) (previous : String) :
    List Patch → Except PatchError Bytes
  | [] => .ok (base.drop cursor)
  | patch :: rest =>
      if base.length ≤ patch.offset.toNat ∨ base.length < patch.stop then
        .error (.outOfBounds patch base.length)
      else if patch.offset.toNat < cursor then .error (.overlap patch cursor previous)
      else
        match composeFrom base patch.stop patch.producer rest with
        | .error fault => .error fault
        | .ok tail =>
            .ok ((base.drop cursor).take (patch.offset.toNat - cursor) ++ patch.bytes ++ tail)

/-- The image with all patches written to it. -/
def compose (set : PatchSet) (image : Image) : Except PatchError Image :=
  match composeFrom image.bytes 0 "" set.sorted with
  | .error fault => .error fault
  | .ok bytes => .ok ⟨bytes⟩

end PatchSet

end EventScript
