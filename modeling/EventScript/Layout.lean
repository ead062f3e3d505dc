import EventScript.Image.Error

/-!
# Layout of an image in the address space

An image stands at a load address. Pointers are addresses, and offsets count from the start of the
image. `toOffset_toPointer` says that the two conversions undo each other.
-/

namespace EventScript

/-- Where an image stands in the address space, and where it has free space. -/
structure Layout where
  /-- Address of the first byte of the image. -/
  loadBase : UInt32 := 0x08000000
  /-- Address of the first free byte. -/
  freeBase : UInt32 := 0x08223f4c
  /-- Number of free bytes. -/
  freeSize : UInt32 := 0x1860
deriving DecidableEq, Repr

namespace Layout

/-- The offset in the image of an address, which must not be below the load address. -/
def toOffset (layout : Layout) (address : UInt32) : Except ImageError UInt32 :=
  if layout.loadBase ≤ address then .ok (address - layout.loadBase)
  else .error (.notAPointer address)

/-- The address of an offset in the image, which must not exceed 32 bits. -/
def toPointer (layout : Layout) (offset : UInt32) : Except ImageError UInt32 :=
  if layout.loadBase.toNat + offset.toNat < UInt32.size then .ok (layout.loadBase + offset)
  else .error (.notAnOffset offset)

/-- The address of an offset leads back to the offset. -/
theorem toOffset_toPointer {layout : Layout} {offset address : UInt32}
    (h : layout.toPointer offset = .ok address) : layout.toOffset address = .ok offset := by
  unfold toPointer at h
  split at h
  · rename_i hlt
    rw [UInt32.size] at hlt
    simp only [Except.ok.injEq] at h
    subst h
    have hle : layout.loadBase ≤ layout.loadBase + offset := by
      rw [UInt32.le_iff_toNat_le, UInt32.toNat_add]
      omega
    simp only [toOffset, hle, if_true, Except.ok.injEq]
    apply UInt32.toNat_inj.mp
    rw [UInt32.toNat_sub_of_le _ _ hle, UInt32.toNat_add]
    omega
  · simp at h

end Layout

end EventScript
