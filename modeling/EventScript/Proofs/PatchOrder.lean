import EventScript.Proofs.Compose

/-!
# The order in which patches are asked for

`exists_compose_iff` says which patches can be composed: they have to be inside the image and apart
from each other, and of the patches with one offset all but the last have to be empty. Only the last
condition looks at the order in which they were asked for. `compose_perm` says when that order
matters: it never changes the image, and it changes whether there is one exactly if the patches can
be composed in some order and an empty patch has the offset of one that is not empty.
`compose_tied_orders` is such a case. Patches that were composed can be composed once more without
effect (`compose_again`).
-/

namespace EventScript

namespace Patch

/-- One of the patches ends at or before the start of the other. -/
def Apart (first second : Patch) : Prop :=
  first.Before second ∨ second.Before first

theorem Apart.symm {first second : Patch} (h : first.Apart second) : second.Apart first :=
  Or.symm h

theorem Before.trans {first second third : Patch} (h : first.Before second)
    (hthird : second.Before third) : first.Before third := by
  have := second.offset_le_stop
  unfold Before at *
  omega

/-- A patch ends before one at its own offset just if it is empty. -/
theorem before_iff_of_offset_eq {first second : Patch} (h : first.offset = second.offset) :
    first.Before second ↔ first.bytes = [] := by
  rw [Before, stop, h, ← List.length_eq_zero_iff]
  omega

/-- For patches in the order of their offsets, to be apart means that the first ends before the
second, except that of two patches at one offset it may be the second that is empty. -/
theorem before_iff_apart {first second : Patch} (h : first.offset ≤ second.offset) :
    first.Before second ↔
      first.Apart second ∧ (first.offset = second.offset → first.bytes = []) := by
  constructor
  · intro hbefore
    exact ⟨.inl hbefore, fun hoffset => (before_iff_of_offset_eq hoffset).mp hbefore⟩
  · rintro ⟨hbefore | hafter, hties⟩
    · exact hbefore
    · -- The second one ends before the first starts, so both have one offset.
      have hoffset : first.offset = second.offset := by
        have := second.offset_le_stop
        rw [UInt32.le_iff_toNat_le] at h
        unfold Before at hafter
        apply UInt32.toNat_inj.mp
        omega
      exact (before_iff_of_offset_eq hoffset).mpr (hties hoffset)

/-- A byte that a patch covers is that of the patch. -/
theorem StandsIn.getElem?_eq {bytes : Bytes} {patch : Patch} {index : Nat}
    (h : patch.StandsIn bytes)
    (hcovers : patch.Covers index) : bytes[index]? = patch.bytes[index - patch.offset.toNat]? := by
  obtain ⟨hstart, hstop⟩ := hcovers
  have hlt : index - patch.offset.toNat < patch.bytes.length := by
    unfold stop at hstop
    omega
  rw [StandsIn] at h
  rw [← h, List.getElem?_take_of_lt hlt, List.getElem?_drop, Nat.add_sub_cancel' hstart]

end Patch

namespace PatchSet

variable {set : PatchSet} {image : Image} {patches others : List Patch}

/-- The patches are inside the image and apart from each other. -/
def Compatible (image : Image) (patches : List Patch) : Prop :=
  (∀ patch ∈ patches, patch.Inside image.size) ∧ patches.Pairwise Patch.Apart

/-- Of the patches with one offset all but the last are empty. -/
def TiesEmpty (patches : List Patch) : Prop :=
  patches.Pairwise fun first second => first.offset = second.offset → first.bytes = []

/-- No empty patch has the offset of one that is not empty. -/
def Untied (patches : List Patch) : Prop :=
  ∀ first ∈ patches, ∀ second ∈ patches, first.offset = second.offset → first.bytes = [] →
    second.bytes = []

theorem Compatible.perm (h : Compatible image patches) (hperm : patches.Perm others) :
    Compatible image others :=
  ⟨fun patch hpatch => h.1 patch (hperm.mem_iff.mpr hpatch),
    (hperm.pairwise_iff fun {_ _} => Patch.Apart.symm).mp h.2⟩

theorem Untied.perm (h : Untied patches) (hperm : patches.Perm others) : Untied others :=
  fun first hfirst second hsecond =>
    h first (hperm.mem_iff.mpr hfirst) second (hperm.mem_iff.mpr hsecond)

/-- Whether ties are empty only depends on the order of the patches with one offset. -/
theorem tiesEmpty_iff_filter :
    TiesEmpty patches ↔ ∀ offset,
      (patches.filter fun patch => patch.offset = offset).Pairwise fun first _ =>
        first.bytes = [] := by
  simp only [List.pairwise_filter, decide_eq_true_eq]
  constructor
  · intro h offset
    exact h.imp fun hties hfirst hsecond => hties (hfirst.trans hsecond.symm)
  · intro h
    rw [TiesEmpty, List.pairwise_iff_getElem]
    intro i j hi hj hij hoffset
    exact List.pairwise_iff_getElem.mp (h patches[i].offset) i j hi hj hij rfl hoffset.symm

/-- Sorted patches end one before the other just if they are apart and, in the order they came in,
ties are empty. -/
theorem Sorted.isChain_before_iff (h : Sorted patches others) :
    others.IsChain Patch.Before ↔ patches.Pairwise Patch.Apart ∧ TiesEmpty patches := by
  have htrans : IsTrans Patch Patch.Before := ⟨fun _ _ _ => Patch.Before.trans⟩
  -- Sorting is stable, so it keeps the order of the patches with one offset.
  have hties : TiesEmpty patches ↔ TiesEmpty others := by
    simp only [tiesEmpty_iff_filter, h.stable]
  rw [List.isChain_iff_pairwise, hties, ← h.perm.pairwise_iff fun {_ _} => Patch.Apart.symm,
    TiesEmpty, ← List.pairwise_and_iff]
  constructor
  · intro hbefore
    exact (h.ordered.and hbefore).imp fun hpair => (Patch.before_iff_apart hpair.1).mp hpair.2
  · intro hapart
    exact (h.ordered.and hapart).imp fun hpair => (Patch.before_iff_apart hpair.1).mpr hpair.2

/-- Patches can be composed just if they are inside the image and apart, and ties are empty. -/
theorem exists_compose_iff :
    (∃ result, set.compose image = .ok result) ↔
      Compatible image set.patches ∧ TiesEmpty set.patches := by
  have hsorted := sorted_sorted set
  have hcomposes : (∃ result, set.compose image = .ok result) ↔
      ∃ bytes, Composes image.bytes 0 set.sorted bytes :=
    ⟨fun ⟨result, h⟩ => ⟨result.bytes, compose_eq_ok_iff.mp h⟩,
      fun ⟨bytes, h⟩ => ⟨⟨bytes⟩, compose_eq_ok_iff.mpr h⟩⟩
  have hstart : ∀ patch ∈ set.sorted.head?, 0 ≤ patch.offset.toNat := fun _ _ => Nat.zero_le _
  have hinside : (∀ patch ∈ set.sorted, patch.Inside image.bytes.length) ↔
      ∀ patch ∈ set.patches, patch.Inside image.size :=
    forall_congr' fun patch => by rw [hsorted.perm.mem_iff, Image.size]
  rw [hcomposes, exists_composes_iff, and_iff_left hstart, hinside, hsorted.isChain_before_iff,
    Compatible, and_assoc]

/-- If no empty patch is tied to one that is not empty, patches that are apart have empty ties. -/
theorem Untied.tiesEmpty (h : Untied patches) (hapart : patches.Pairwise Patch.Apart) :
    TiesEmpty patches := by
  refine hapart.imp_of_mem fun {first second} hfirst hsecond hpair hoffset => ?_
  rcases hpair with hbefore | hafter
  · exact (Patch.before_iff_of_offset_eq hoffset).mp hbefore
  · exact h second hsecond first hfirst hoffset.symm
      ((Patch.before_iff_of_offset_eq hoffset.symm).mp hafter)

/-- Patches of which no empty one is tied to one that is not empty can be composed just if they are
compatible. -/
theorem Untied.exists_compose_iff (h : Untied set.patches) :
    (∃ result, set.compose image = .ok result) ↔ Compatible image set.patches := by
  rw [PatchSet.exists_compose_iff]
  exact and_iff_left_of_imp fun hcompatible => h.tiesEmpty hcompatible.2

/-- Patches that are apart have empty ties if the empty ones come first. -/
theorem tiesEmpty_emptyFirst (hapart : patches.Pairwise Patch.Apart) :
    TiesEmpty (patches.filter (fun patch => patch.bytes.isEmpty) ++
      patches.filter fun patch => !patch.bytes.isEmpty) := by
  rw [TiesEmpty, List.pairwise_append]
  refine ⟨?_, ?_, ?_⟩
  · refine List.pairwise_of_forall_mem_list fun first hfirst _ _ _ => ?_
    simpa using (List.mem_filter.mp hfirst).2
  · have huntied : Untied (patches.filter fun patch => !patch.bytes.isEmpty) := by
      intro first hfirst _ _ _ hempty
      simp [hempty] at hfirst
    exact huntied.tiesEmpty (hapart.sublist List.filter_sublist)
  · intro first hfirst _ _ _
    simpa using (List.mem_filter.mp hfirst).2

/-- Compatible patches among which an empty one is tied to one that is not empty can be composed in
one order, and cannot be composed in another. -/
theorem exists_orders_of_not_untied (hcompatible : Compatible image patches)
    (h : ¬ Untied patches) :
    ∃ good bad : PatchSet, good.patches.Perm patches ∧ bad.patches.Perm patches ∧
      (∃ result, good.compose image = .ok result) ∧ ¬ ∃ result, bad.compose image = .ok result := by
  simp only [Untied, not_forall] at h
  obtain ⟨empty, hempty, full, hfull, hoffset, hemptyBytes, hfullBytes⟩ := h
  have hgood := List.filter_append_perm (fun patch : Patch => patch.bytes.isEmpty) patches
  have hbad : (full :: patches.erase full).Perm patches := (List.perm_cons_erase hfull).symm
  have hbehind : empty ∈ patches.erase full := by
    refine (List.mem_erase_of_ne ?_).mpr hempty
    rintro rfl
    exact hfullBytes hemptyBytes
  refine ⟨⟨_⟩, ⟨_⟩, hgood, hbad, ?_, fun hresult => ?_⟩
  · exact exists_compose_iff.mpr ⟨hcompatible.perm hgood.symm, tiesEmpty_emptyFirst hcompatible.2⟩
  · have hties := List.pairwise_cons.mp (exists_compose_iff.mp hresult).2
    exact hfullBytes (hties.1 empty hbehind hoffset.symm)

/-- There is at most one image with the bytes of patches at their offsets and those of another image
elsewhere. -/
theorem Composed.unique {one other : Image} (h : Composed image patches one)
    (hother : Composed image patches other) : one = other := by
  have hbytes : one.bytes = other.bytes := by
    apply List.ext_getElem?
    intro index
    by_cases hcovered : ∃ patch ∈ patches, patch.Covers index
    · obtain ⟨patch, hpatch, hcovers⟩ := hcovered
      rw [(h.stands patch hpatch).getElem?_eq hcovers,
        (hother.stands patch hpatch).getElem?_eq hcovers]
    · have hfree : ∀ patch ∈ patches, ¬ patch.Covers index :=
        fun patch hpatch hcovers => hcovered ⟨patch, hpatch, hcovers⟩
      rw [h.kept index hfree, hother.kept index hfree]
  cases one
  cases other
  exact congrArg Image.mk hbytes

/-- What patches give does not depend on their order. -/
theorem Composed.perm {result : Image} (h : Composed image patches result)
    (hperm : patches.Perm others) : Composed image others result :=
  ⟨h.size, fun patch hpatch => h.stands patch (hperm.mem_iff.mpr hpatch),
    fun index hfree => h.kept index fun patch hpatch => hfree patch (hperm.mem_iff.mp hpatch)⟩

/-- The order in which patches are asked for does not change the image that they give. Whether they
can be composed does not depend on it either, exactly if no empty patch has the offset of one that
is not empty or the patches are not compatible. -/
theorem compose_perm (set : PatchSet) (image : Image) :
    (∀ other : PatchSet, other.patches.Perm set.patches → ∀ result otherResult,
      set.compose image = .ok result → other.compose image = .ok otherResult →
      otherResult = result) ∧
    ((∀ other : PatchSet, other.patches.Perm set.patches →
        ((∃ result, set.compose image = .ok result) ↔ ∃ result, other.compose image = .ok result)) ↔
      Untied set.patches ∨ ¬ Compatible image set.patches) := by
  refine ⟨?_, ?_, ?_⟩
  · intro other hperm result otherResult hresult hother
    exact ((composed_of_compose hother).perm hperm).unique (composed_of_compose hresult)
  · intro hsame
    by_contra hneither
    simp only [not_or, not_not] at hneither
    obtain ⟨good, bad, hgood, hbad, hcomposed, hrefused⟩ :=
      exists_orders_of_not_untied hneither.2 hneither.1
    exact hrefused ((hsame bad hbad).mp ((hsame good hgood).mpr hcomposed))
  · rintro (huntied | hincompatible) other hperm
    · rw [huntied.exists_compose_iff, (huntied.perm hperm.symm).exists_compose_iff]
      exact ⟨fun h => h.perm hperm.symm, fun h => h.perm hperm⟩
    · refine iff_of_false (fun h => ?_) fun h => ?_
      · exact hincompatible (exists_compose_iff.mp h).1
      · exact hincompatible ((exists_compose_iff.mp h).1.perm hperm)

/-- Three patches, an empty one among them, that give one image in two orders. -/
theorem compose_perm_three :
    Untied [⟨3, [9], "b"⟩, ⟨0, [], "empty"⟩, ⟨1, [7, 8], "a"⟩] ∧
      compose ⟨[⟨3, [9], "b"⟩, ⟨0, [], "empty"⟩, ⟨1, [7, 8], "a"⟩]⟩ ⟨[0, 1, 2, 3, 4]⟩ =
        .ok ⟨[0, 7, 8, 9, 4]⟩ ∧
      compose ⟨[⟨1, [7, 8], "a"⟩, ⟨3, [9], "b"⟩, ⟨0, [], "empty"⟩]⟩ ⟨[0, 1, 2, 3, 4]⟩ =
        .ok ⟨[0, 7, 8, 9, 4]⟩ := by
  have huntied : Untied [⟨3, [9], "b"⟩, ⟨0, [], "empty"⟩, ⟨1, [7, 8], "a"⟩] := by
    unfold Untied
    decide +kernel
  have hsorted : sorted ⟨[⟨3, [9], "b"⟩, ⟨0, [], "empty"⟩, ⟨1, [7, 8], "a"⟩]⟩ =
      [⟨0, [], "empty"⟩, ⟨1, [7, 8], "a"⟩, ⟨3, [9], "b"⟩] := by
    simp [sorted, List.mergeSort]
  have hcompose : compose ⟨[⟨3, [9], "b"⟩, ⟨0, [], "empty"⟩, ⟨1, [7, 8], "a"⟩]⟩ ⟨[0, 1, 2, 3, 4]⟩ =
      .ok ⟨[0, 7, 8, 9, 4]⟩ := by
    rw [compose, hsorted]
    decide +kernel
  have hperm : [⟨1, [7, 8], "a"⟩, ⟨3, [9], "b"⟩, ⟨0, [], "empty"⟩].Perm
      [⟨3, [9], "b"⟩, ⟨0, [], "empty"⟩, (⟨1, [7, 8], "a"⟩ : Patch)] := by
    decide +kernel
  obtain ⟨himage, hverdict⟩ :=
    compose_perm ⟨[⟨3, [9], "b"⟩, ⟨0, [], "empty"⟩, ⟨1, [7, 8], "a"⟩]⟩ ⟨[0, 1, 2, 3, 4]⟩
  obtain ⟨result, hresult⟩ := (hverdict.mpr (.inl huntied) ⟨_⟩ hperm).mp ⟨_, hcompose⟩
  exact ⟨huntied, hcompose, himage ⟨_⟩ hperm _ _ hcompose hresult ▸ hresult⟩

/-- An empty patch and one that is not empty at the same offset are composed if the empty one was
asked for first, and refused if it was asked for last. -/
theorem compose_tied_orders :
    [⟨1, [], "run"⟩, ⟨1, [9], "event"⟩].Perm [⟨1, [9], "event"⟩, (⟨1, [], "run"⟩ : Patch)] ∧
      compose ⟨[⟨1, [], "run"⟩, ⟨1, [9], "event"⟩]⟩ ⟨[0, 1, 2]⟩ = .ok ⟨[0, 9, 2]⟩ ∧
      compose ⟨[⟨1, [9], "event"⟩, ⟨1, [], "run"⟩]⟩ ⟨[0, 1, 2]⟩ =
        .error (.overlap ⟨1, [], "run"⟩ 2 "event") := by
  have hfirst :
      sorted ⟨[⟨1, [], "run"⟩, ⟨1, [9], "event"⟩]⟩ = [⟨1, [], "run"⟩, ⟨1, [9], "event"⟩] := by
    simp [sorted, List.mergeSort]
  have hlast :
      sorted ⟨[⟨1, [9], "event"⟩, ⟨1, [], "run"⟩]⟩ = [⟨1, [9], "event"⟩, ⟨1, [], "run"⟩] := by
    simp [sorted, List.mergeSort]
  refine ⟨List.Perm.swap _ _ _, ?_, ?_⟩
  · rw [compose, hfirst]
    decide +kernel
  · rw [compose, hlast]
    decide +kernel

end PatchSet

end EventScript
