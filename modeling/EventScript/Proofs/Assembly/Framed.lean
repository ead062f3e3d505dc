import EventScript.Proofs.Assembly.Direct

/-!
# Records of an assembled script

Every record of an assembled script is encoded directly (`Run.direct`). A raw record tells its size
in its second byte. In a record that is written from a template the size stands right behind the
first field (`Encodes.lengthByte`), which is the second byte just if that field takes one byte.
`framed_of_assemble` puts this together; `wide_first_slot` is a record whose second byte is not its
size.
-/

namespace EventScript

/-- If the mnemonic has an instruction, the first field of its template takes one byte. -/
def Grammar.NarrowOpcode (grammar : Grammar) (mnemonic : String) : Prop :=
  ∀ instruction first, grammar.get? mnemonic = some instruction →
    instruction.template.fields.head? = some first → first.size = 1

/-- What holds of all instructions of a grammar holds of that under a mnemonic. -/
theorem Grammar.narrowOpcode_of_entries {grammar : Grammar}
    (h : ∀ entry ∈ grammar.instructions.entries, ∀ first ∈ entry.2.template.fields.head?,
      first.size = 1) (mnemonic : String) : grammar.NarrowOpcode mnemonic := by
  intro instruction first hfound hfirst
  exact h _ (Dictionary.mem_of_find? hfound) first hfirst

/-- The built-in instructions start with a fixed byte. -/
theorem Grammar.narrowOpcode_builtin (mnemonic : String) : Grammar.builtin.NarrowOpcode mnemonic :=
  narrowOpcode_of_entries (by decide +kernel) mnemonic

namespace Field

/-- Every field takes a byte at least. -/
theorem size_pos (field : Field) : 0 < field.size := by
  cases field with
  | literal byte => exact Nat.one_pos
  | slot operand width => cases width <;> simp [Field.size, Width.size]

/-- The field behind the first one, if it is a fixed byte, stands behind the bytes of the first one.
-/
theorem Encodes.lengthByte {value? : Nat → Option UInt32} {first : Field} {byte : UInt8}
    {rest : List Field} {bytes : Bytes}
    (h : Encodes value? (first :: .literal byte :: rest) bytes) :
    bytes[first.size]? = some byte := by
  cases h with
  | literal h =>
      cases h with
      | literal _ => rfl
  | @slot operand width value _ _ _ _ h =>
      cases h with
      | literal _ => simp [Field.size]

end Field

namespace Assembly

open EventScript.Field Statement

variable {grammar : Grammar} {labels : String → Option UInt32} {number : Nat} {state final : State}
  {texts : List (List Char)} {records : List Record}

/-- The records of a statement are encoded directly. -/
theorem Step.direct {statement : Statement} {after : State}
    (h : Step grammar labels number state statement after records) {record : Record}
    (hrecord : record ∈ records) :
    ∃ symbols operands,
      Direct grammar symbols labels record.address record.mnemonic operands record.bytes := by
  cases h with
  | instruction hdirect =>
      obtain rfl := List.mem_singleton.mp hrecord
      exact ⟨_, _, hdirect⟩
  | _ => cases hrecord

/-- The records of lines are encoded directly. -/
theorem Run.direct (h : Run grammar labels number state texts final records) {record : Record}
    (hrecord : record ∈ records) :
    ∃ symbols operands,
      Direct grammar symbols labels record.address record.mnemonic operands record.bytes := by
  induction h with
  | nil => cases hrecord
  | cons _ hstep _ ih =>
      rcases List.mem_append.mp hrecord with hfirst | hlater
      · exact hstep.direct hfirst
      · exact ih hlater

/-- Where the size of a record stands: it has two bytes at least, the first field of a template is
followed by the size, and if that field takes one byte the record is framed. -/
structure Sized (grammar : Grammar) (mnemonic : String) (bytes : Bytes) : Prop where
  two_le : 2 ≤ bytes.length
  behind_first : mnemonic ≠ Grammar.rawMnemonic → ∃ instruction first byte,
    grammar.get? mnemonic = some instruction ∧
      instruction.template.fields.head? = some first ∧ bytes[first.size]? = some byte ∧
      byte.toNat = bytes.length
  framed : grammar.NarrowOpcode mnemonic → bytes.Framed

/-- What is encoded directly tells its size. -/
theorem Direct.sized {admitted : String → Prop} (hgrammar : grammar.WellFormed admitted)
    {symbols : SymbolTable} {address : UInt32} {mnemonic : String} {operands : List Token}
    {bytes : Bytes} (h : Direct grammar symbols labels address mnemonic operands bytes) :
    Sized grammar mnemonic bytes := by
  cases h with
  | raw _ hframed => exact ⟨hframed.two_le, fun hraw => absurd rfl hraw, fun _ => hframed⟩
  | @template _ _ instruction arguments _ hraw hfound _ _ hencodes =>
      obtain ⟨byte, hbyte, hsize⟩ := (hgrammar.offers_of_get? hfound).2.template.framed
      have hlength : byte.toNat = bytes.length := by rw [hsize, Template.size, hencodes.length_eq]
      obtain ⟨first, rest, hfields⟩ :
          ∃ first rest, instruction.template.fields = first :: .literal byte :: rest := by
        cases hlist : instruction.template.fields with
        | nil => simp [hlist] at hbyte
        | cons first tail =>
            cases tail with
            | nil => simp [hlist] at hbyte
            | cons second rest =>
                simp only [hlist, List.getElem?_cons_succ, List.getElem?_cons_zero,
                  Option.some.injEq] at hbyte
                exact ⟨first, rest, by rw [hbyte]⟩
      rw [hfields] at hencodes
      have hbehind := hencodes.lengthByte
      have hhead : instruction.template.fields.head? = some first := by
        rw [hfields, List.head?_cons]
      have hlt := (List.getElem?_eq_some_iff.mp hbehind).1
      have hpositive := first.size_pos
      refine ⟨by omega, fun _ => ⟨instruction, first, byte, hfound, hhead, hbehind, hlength⟩, ?_⟩
      intro hnarrow
      rw [hnarrow instruction first hfound hhead] at hbehind
      rw [Bytes.Framed, hbehind, Option.map_some, hlength]

/-- Every record of an assembled script has two bytes at least, and tells its size in its second
byte if it is a raw record or the first field of its instruction takes one byte; then listing and
measuring an event step over it. In any case the size stands right behind the first field. All
records of built-in instructions are framed. -/
theorem framed_of_assemble {base : UInt32} {constants : Constants} {script : String}
    {assembly : Assembly} (hgrammar : Grammar.Built (fun _ => True) grammar)
    (h : assemble grammar base constants script = .ok assembly) :
    ∀ record ∈ assembly.records, Sized grammar record.mnemonic record.bytes ∧
      (record.mnemonic = Grammar.rawMnemonic ∨ grammar.NarrowOpcode record.mnemonic ∨
          grammar = Grammar.builtin →
        record.bytes.Framed ∧ record.bytes.SteppedOver) := by
  have hwell := hgrammar.wellFormed fun _ _ => trivial
  obtain ⟨final, hrun, _, _⟩ := (assemble_eq_ok_iff hwell).mp h
  intro record hrecord
  obtain ⟨symbols, operands, hdirect⟩ := hrun.direct hrecord
  have hsized := hdirect.sized hwell
  refine ⟨hsized, fun hcase => ?_⟩
  suffices hframed : record.bytes.Framed from ⟨hframed, hframed.steppedOver⟩
  rcases hcase with hraw | hnarrow | hbuiltin
  · -- No instruction of the grammar has the mnemonic of raw records.
    refine hsized.framed fun instruction first hfound => ?_
    obtain ⟨hmnemonic, hoffers⟩ := hwell.offers_of_get? hfound
    exact absurd (hmnemonic.trans hraw) hoffers.not_raw
  · exact hsized.framed hnarrow
  · rw [hbuiltin] at hsized
    exact hsized.framed (Grammar.narrowOpcode_builtin record.mnemonic)

/-- A raw record and a record whose first field is a slot of one byte are framed. -/
theorem framed_of_assemble_byteSlot :
    ∃ grammar assembly,
      Grammar.empty.define "show" (some [.value, .label]) "$0 08 ff ff $1" = .ok grammar ∧
      assemble grammar 0x8000000 .empty "db 1 4 0 0\n.here:\nshow 7 .here" = .ok assembly ∧
      assembly.bytes = [1, 4, 0, 0, 7, 8, 0xff, 0xff, 4, 0, 0, 8] ∧
      Bytes.SteppedOver [1, 4, 0, 0] ∧ Bytes.SteppedOver [7, 8, 0xff, 0xff, 4, 0, 0, 8] := by
  have hdefine : Grammar.empty.define "show" (some [.value, .label]) "$0 08 ff ff $1" =
      .ok ⟨⟨[("show", ⟨"show", some [.value, .label],
        ⟨[.slot 0 .byte, .literal 8, .literal 0xff, .literal 0xff, .slot 1 .word]⟩⟩)]⟩⟩ := by
    decide +kernel
  have hassemble : assemble
      ⟨⟨[("show", ⟨"show", some [.value, .label],
        ⟨[.slot 0 .byte, .literal 8, .literal 0xff, .literal 0xff, .slot 1 .word]⟩⟩)]⟩⟩
      0x8000000 .empty "db 1 4 0 0\n.here:\nshow 7 .here" =
      .ok ⟨0x8000000,
        [⟨0x8000000, 1, "db", [1, 4, 0, 0]⟩,
          ⟨0x8000004, 3, "show", [7, 8, 0xff, 0xff, 4, 0, 0, 8]⟩],
        ⟨[("here", 0x8000004)]⟩⟩ := by
    decide +kernel
  have hframed := framed_of_assemble (.define .empty trivial hdefine) hassemble
  refine ⟨_, _, hdefine, hassemble, rfl, ?_, ?_⟩
  · exact ((hframed _ List.mem_cons_self).2 (.inl rfl)).2
  · refine ((hframed _ (List.mem_cons_of_mem _ List.mem_cons_self)).2 (.inr (.inl ?_))).2
    intro instruction first hfound hfirst
    cases hfound
    cases hfirst
    rfl

/-- A template may start with a slot of two bytes. The byte that tells the size is then the third
one, and the record cannot be listed. -/
theorem wide_first_slot :
    ∃ grammar assembly,
      Grammar.empty.define "wide" (some [.value]) "$(u:0) 03" = .ok grammar ∧
      assemble grammar 0x8000000 .empty "wide 0x1234" = .ok assembly ∧
      assembly.records = [⟨0x8000000, 1, "wide", [0x34, 0x12, 3]⟩] ∧
      ¬ Bytes.Framed [0x34, 0x12, 3] ∧
      Listing.lines grammar 0x8000000 assembly.bytes = .error (.badRecord 0x8000000 0x12 3) := by
  have hdefine : Grammar.empty.define "wide" (some [.value]) "$(u:0) 03" =
      .ok ⟨⟨[("wide", ⟨"wide", some [.value], ⟨[.slot 0 .half, .literal 3]⟩⟩)]⟩⟩ := by
    decide +kernel
  have hassemble : assemble
      ⟨⟨[("wide", ⟨"wide", some [.value], ⟨[.slot 0 .half, .literal 3]⟩⟩)]⟩⟩
      0x8000000 .empty "wide 0x1234" =
      .ok ⟨0x8000000, [⟨0x8000000, 1, "wide", [0x34, 0x12, 3]⟩], ⟨[]⟩⟩ := by
    decide +kernel
  refine ⟨_, _, hdefine, hassemble, rfl, by simp [Bytes.Framed], ?_⟩
  simp [Listing.lines, Listing.linesFrom, Assembly.bytes, Listing.lengthByte]

end Assembly

end EventScript
