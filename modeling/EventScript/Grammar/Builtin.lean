import EventScript.Grammar

/-!
# The built-in instructions

The instructions every script may use. `builtin_eq_ok` says that each of them has a free mnemonic
and a template that can be read.
-/

namespace EventScript.Grammar

/-- An instruction as it is written down: mnemonic, kinds of operands and text of the template. -/
structure Description where
  mnemonic : String
  operands : Option (List OperandKind)
  template : String

/-- The built-in instructions. -/
def descriptions : List Description :=
  [ ⟨"end_event", none, "00 04 ff ff"⟩,
    ⟨"nop", none, "01 04 ff ff"⟩,
    ⟨"load_text", some [.keyword .textWindow, .value], "05 08 $(u:1) $0 ff ff ff"⟩,
    ⟨"close_dialog", some [.keyword .dialogClose], "06 04 $0 ff"⟩,
    ⟨"delay", some [.value], "09 04 $(u:0)"⟩,
    ⟨"jump", some [.label], "0c 08 ff ff $(U:0)"⟩,
    ⟨"jump_chest_empty", some [.label], "0d 0c 00 ff $(U:0) 00 00 00 00"⟩,
    ⟨"music", some [.value, .value], "11 08 $0 ff $(u:1) ff ff"⟩,
    ⟨"set_repeat", some [.value], "19 04 00 $0"⟩,
    ⟨"repeat", some [.value, .label], "19 08 $0 ff $(U:1)"⟩,
    ⟨"set_npc_pose", some [.value, .value], "21 04 $0 $1"⟩,
    ⟨"show_dialog", none, "27 04 00 ff"⟩,
    ⟨"set_flag", some [.value], "2d 04 $0 00"⟩,
    ⟨"check_flag", some [.value, .keyword .jumpCondition, .label], "2d 08 $0 $1 $(U:2)"⟩,
    ⟨"remove_trigger", some [.value], "2e 04 $(u:0)"⟩,
    ⟨"npc_update", some [.value, .value], "30 04 $0 $1"⟩,
    ⟨"set_npc_event", some [.value, .value], "30 08 01 $0 $(u:1) ff ff"⟩,
    ⟨"remove_all", some [.value], "36 04 $(u:0)"⟩,
    ⟨"give_item", some [.value], "37 04 00 $0"⟩,
    ⟨"take_item", some [.value], "37 04 01 $0"⟩,
    ⟨"check_item", some [.value, .keyword .itemCondition, .label], "37 08 02 $0 $(U:2)"⟩,
    ⟨"jump_by_dir", some [.label, .label, .label], "42 10 ff ff $(U:0) $(U:1) $(U:2)"⟩ ]

/-- Add instructions in order, up to the first that cannot be added. -/
def defineAll (grammar : Grammar) : List Description → Except EncodeError Grammar
  | [] => .ok grammar
  | description :: rest =>
      match grammar.define description.mnemonic description.operands description.template with
      | .error fault => .error fault
      | .ok grammar => defineAll grammar rest

/-- The grammar of the built-in instructions. -/
def builtin : Grammar :=
  match empty.defineAll descriptions with
  | .ok grammar => grammar
  | .error _ => empty

/-- Every built-in instruction can be added. -/
theorem builtin_eq_ok : empty.defineAll descriptions = .ok builtin := by
  have h : (empty.defineAll descriptions).isOk = true := by decide +kernel
  unfold builtin
  split
  · assumption
  · simp_all [Except.isOk, Except.toBool]

end EventScript.Grammar
