import Mathlib.Data.List.Forall2
import EventScript.Dictionary

/-!
# Entries of dictionaries

What look-ups say about the entries of a dictionary. As long as no key occurs twice,
`find?_eq_some_iff` says that a look-up finds exactly the entries. Two ways of building a dictionary
keep its keys apart: `insertEntry_perm` covers keys that are new, and `Ordered.insert` covers keys
that come in any order and may replace earlier ones. Dictionaries in order are equal if look-ups
find the same in them (`Ordered.ext`). `Matches` relates two dictionaries with the same keys value
by value.
-/

namespace EventScript.Dictionary

variable {κ α β : Type} [DecidableEq κ]

/-- What a look-up finds stands in an entry. -/
theorem mem_of_find? {key : κ} {value : α} {entries : List (κ × α)}
    (h : find? key entries = some value) : (key, value) ∈ entries := by
  induction entries with
  | nil => simp [find?] at h
  | cons entry rest ih =>
      obtain ⟨other, old⟩ := entry
      simp only [find?] at h
      split at h
      · rename_i hkey
        cases h
        subst hkey
        exact List.mem_cons_self
      · exact List.mem_cons_of_mem _ (ih h)

/-- A look-up fails exactly for what is no key. -/
theorem find?_eq_none_iff {key : κ} {entries : List (κ × α)} :
    find? key entries = none ↔ key ∉ entries.map Prod.fst := by
  induction entries with
  | nil => simp [find?]
  | cons entry rest ih =>
      obtain ⟨other, old⟩ := entry
      by_cases hkey : key = other
      · simp [find?, hkey]
      · simp [find?, hkey, ih]

/-- Among entries with different keys, an entry is found under its key. -/
theorem find?_of_mem {key : κ} {value : α} {entries : List (κ × α)}
    (hkeys : (entries.map Prod.fst).Nodup) (h : (key, value) ∈ entries) :
    find? key entries = some value := by
  induction entries with
  | nil => cases h
  | cons entry rest ih =>
      obtain ⟨other, old⟩ := entry
      simp only [List.map_cons, List.nodup_cons] at hkeys
      cases h with
      | head => simp [find?]
      | tail _ hrest =>
          have hne : key ≠ other := by
            rintro rfl
            exact hkeys.1 (List.mem_map.mpr ⟨_, hrest, rfl⟩)
          simpa [find?, hne] using ih hkeys.2 hrest

/-- Among entries with different keys, look-ups find exactly the entries. -/
theorem find?_eq_some_iff {key : κ} {value : α} {entries : List (κ × α)}
    (hkeys : (entries.map Prod.fst).Nodup) :
    find? key entries = some value ↔ (key, value) ∈ entries :=
  ⟨mem_of_find?, find?_of_mem hkeys⟩

/-- The dictionaries have the same keys in the same order, and their values are related. -/
def Matches (related : α → β → Prop) (first : Dictionary κ α) (second : Dictionary κ β) : Prop :=
  List.Forall₂ (fun one other => one.1 = other.1 ∧ related one.2 other.2) first.entries
    second.entries

variable {related : α → β → Prop} {first : Dictionary κ α} {second : Dictionary κ β}

omit [DecidableEq κ] in
theorem Matches.keys_eq (h : Matches related first second) : first.keys = second.keys := by
  obtain ⟨entries⟩ := first
  obtain ⟨others⟩ := second
  simp only [Matches, keys] at *
  induction h with
  | nil => rfl
  | cons hentry _ ih => rw [List.map_cons, List.map_cons, hentry.1, ih]

/-- A key has related values, or none in both dictionaries. -/
theorem Matches.get? (h : Matches related first second) (key : κ) :
    Option.Rel related (first.get? key) (second.get? key) := by
  obtain ⟨entries⟩ := first
  obtain ⟨others⟩ := second
  simp only [Matches, Dictionary.get?] at *
  induction h with
  | nil => exact .none
  | @cons one other _ _ hentry _ ih =>
      simp only [find?, ← hentry.1]
      split
      · exact .some hentry.2
      · exact ih

/-- Insertion of related values under one key keeps dictionaries matched. -/
theorem Matches.insert [LT κ] [DecidableLT κ] (h : Matches related first second) (key : κ)
    {value : α} {other : β} (hvalue : related value other) :
    Matches related (first.insert key value) (second.insert key other) := by
  obtain ⟨entries⟩ := first
  obtain ⟨others⟩ := second
  simp only [Matches, Dictionary.insert] at *
  induction h with
  | nil => exact .cons ⟨rfl, hvalue⟩ .nil
  | @cons one two _ _ hentry hrest ih =>
      simp only [insertEntry, ← hentry.1]
      split
      · exact .cons ⟨rfl, hvalue⟩ hrest
      · split
        · exact .cons ⟨rfl, hvalue⟩ (.cons ⟨rfl, hentry.2⟩ hrest)
        · exact .cons ⟨rfl, hentry.2⟩ ih

variable [LT κ] [DecidableLT κ]

/-- Putting in an entry under a new key adds this entry and keeps the others. -/
theorem insertEntry_perm {key : κ} {entries : List (κ × α)} (hnew : find? key entries = none)
    (value : α) : (insertEntry key value entries).Perm ((key, value) :: entries) := by
  induction entries with
  | nil => exact List.Perm.refl _
  | cons entry rest ih =>
      obtain ⟨other, old⟩ := entry
      have hne : key ≠ other := by
        rintro rfl
        simp [find?] at hnew
      have hrest : find? key rest = none := by simpa [find?, hne] using hnew
      by_cases hlt : key < other
      · simp [insertEntry, hne, hlt]
      · simp only [insertEntry, hne, hlt, if_false]
        exact ((ih hrest).cons (other, old)).trans (List.Perm.swap _ _ _)

/-- The keys stand in increasing order. -/
def Ordered (dictionary : Dictionary κ α) : Prop :=
  dictionary.entries.Pairwise fun first second => first.1 < second.1

omit [DecidableEq κ] [DecidableLT κ] in
/-- The empty dictionary is in order. -/
theorem ordered_empty : (empty : Dictionary κ α).Ordered :=
  List.Pairwise.nil

variable [LE κ] [Std.LawfulOrderLT κ]

omit [DecidableEq κ] [DecidableLT κ] in
/-- Keys in increasing order are different. -/
theorem Ordered.nodup {dictionary : Dictionary κ α} (h : dictionary.Ordered) :
    dictionary.keys.Nodup := by
  refine List.pairwise_map.mpr (h.imp ?_)
  intro first second hlt
  exact Std.ne_of_lt hlt

/-- What stands among entries in increasing order after an entry was put in. -/
theorem mem_insertEntry {key : κ} {value : α} {entries : List (κ × α)}
    (hordered : entries.Pairwise fun first second => first.1 < second.1) (entry : κ × α) :
    entry ∈ insertEntry key value entries ↔
      entry = (key, value) ∨ (entry ∈ entries ∧ entry.1 ≠ key) := by
  induction entries with
  | nil => simp [insertEntry]
  | cons head rest ih =>
      obtain ⟨other, old⟩ := head
      obtain ⟨hhead, hrest⟩ := List.pairwise_cons.mp hordered
      -- Behind the head there are only larger keys.
      have hbehind : ∀ later ∈ rest, ∀ bound, ¬ other < bound → later.1 ≠ bound := by
        rintro later hlater bound hbound rfl
        exact hbound (hhead later hlater)
      by_cases hkey : key = other
      · subst hkey
        simp only [insertEntry, if_true, List.mem_cons]
        constructor
        · rintro (rfl | hmem)
          · exact Or.inl rfl
          · exact Or.inr ⟨Or.inr hmem, hbehind entry hmem key Std.lt_irrefl⟩
        · rintro (rfl | ⟨rfl | hmem, hne⟩)
          · exact Or.inl rfl
          · exact absurd rfl hne
          · exact Or.inr hmem
      · by_cases hlt : key < other
        · have hkept : ∀ kept ∈ (other, old) :: rest, kept.1 ≠ key := by
            rintro kept hmem rfl
            rcases List.mem_cons.mp hmem with rfl | hmem
            · exact hkey rfl
            · exact hbehind kept hmem kept.1 (Std.not_gt_of_lt hlt) rfl
          simp only [insertEntry, hkey, hlt, if_true, if_false, List.mem_cons (b := (key, value))]
          exact or_congr_right ⟨fun hmem => ⟨hmem, hkept entry hmem⟩, And.left⟩
        · simp only [insertEntry, hkey, hlt, if_false, List.mem_cons, ih hrest]
          constructor
          · rintro (rfl | rfl | ⟨hmem, hne⟩)
            · exact Or.inr ⟨Or.inl rfl, Ne.symm hkey⟩
            · exact Or.inl rfl
            · exact Or.inr ⟨Or.inr hmem, hne⟩
          · rintro (rfl | ⟨rfl | hmem, hne⟩)
            · exact Or.inr (Or.inl rfl)
            · exact Or.inl rfl
            · exact Or.inr (Or.inr ⟨hmem, hne⟩)

/-- Insertion keeps the keys in increasing order. -/
theorem Ordered.insert [Std.IsLinearOrder κ] {dictionary : Dictionary κ α}
    (h : dictionary.Ordered) (key : κ) (value : α) : (dictionary.insert key value).Ordered := by
  obtain ⟨entries⟩ := dictionary
  show (insertEntry key value entries).Pairwise _
  have hentries : entries.Pairwise fun first second => first.1 < second.1 := h
  clear h
  induction entries with
  | nil => exact List.pairwise_singleton _ _
  | cons head rest ih =>
      obtain ⟨other, old⟩ := head
      obtain ⟨hhead, hrest⟩ := List.pairwise_cons.mp hentries
      by_cases hkey : key = other
      · subst hkey
        simp only [insertEntry, if_true]
        exact List.pairwise_cons.mpr ⟨hhead, hrest⟩
      · by_cases hlt : key < other
        · simp only [insertEntry, hkey, hlt, if_true, if_false]
          refine List.pairwise_cons.mpr ⟨?_, hentries⟩
          intro later hlater
          rcases List.mem_cons.mp hlater with rfl | hlater
          · exact hlt
          · exact Std.lt_trans hlt (hhead later hlater)
        · simp only [insertEntry, hkey, hlt, if_false]
          refine List.pairwise_cons.mpr ⟨?_, ih hrest⟩
          intro later hlater
          rcases (mem_insertEntry hrest later).mp hlater with rfl | ⟨hlater, _⟩
          · exact Std.lt_of_le_of_ne (Std.not_lt.mp hlt) (Ne.symm hkey)
          · exact hhead later hlater

omit [DecidableLT κ] in
/-- In a dictionary in order, look-ups find exactly the entries. -/
theorem Ordered.get?_eq_some_iff {dictionary : Dictionary κ α} (h : dictionary.Ordered) {key : κ}
    {value : α} : dictionary.get? key = some value ↔ (key, value) ∈ dictionary.entries :=
  find?_eq_some_iff h.nodup

omit [DecidableEq κ] [DecidableLT κ] in
/-- Dictionaries in order are equal if they have the same entries in some order. -/
theorem Ordered.eq_of_perm {first second : Dictionary κ α} (hfirst : first.Ordered)
    (hsecond : second.Ordered) (h : first.entries.Perm second.entries) : first = second := by
  have hentries :=
    h.eq_of_pairwise (fun one other _ _ hlt hgt => absurd hgt (Std.not_gt_of_lt hlt)) hfirst hsecond
  cases first
  cases second
  exact congrArg Dictionary.mk hentries

omit [DecidableLT κ] in
/-- A dictionary in order is known by what look-ups find in it. -/
theorem Ordered.ext {first second : Dictionary κ α} (hfirst : first.Ordered)
    (hsecond : second.Ordered)
    (h : ∀ key value, first.get? key = some value ↔ second.get? key = some value) :
    first = second := by
  have hmem : ∀ entry, entry ∈ first.entries ↔ entry ∈ second.entries := by
    rintro ⟨key, value⟩
    rw [← hfirst.get?_eq_some_iff, h, hsecond.get?_eq_some_iff]
  have hnodup : ∀ {dictionary : Dictionary κ α}, dictionary.Ordered → dictionary.entries.Nodup :=
    fun hordered => hordered.imp fun hlt heq => Std.ne_of_lt hlt (congrArg Prod.fst heq)
  exact hfirst.eq_of_perm hsecond
    ((List.perm_ext_iff_of_nodup (hnodup hfirst) (hnodup hsecond)).mpr hmem)

/-- In a dictionary in order, two keys can be inserted one way or the other. -/
theorem Ordered.insert_comm [Std.IsLinearOrder κ] {dictionary : Dictionary κ α}
    (hordered : dictionary.Ordered) {key other : κ} (hne : key ≠ other) (value second : α) :
    (dictionary.insert key value).insert other second =
      (dictionary.insert other second).insert key value := by
  refine ((hordered.insert key value).insert other second).ext
    ((hordered.insert other second).insert key value)
    fun sought found => ?_
  simp only [get?_insert]
  split
  · rename_i hsought
    rw [if_neg (hsought ▸ Ne.symm hne)]
  · rfl

end EventScript.Dictionary
