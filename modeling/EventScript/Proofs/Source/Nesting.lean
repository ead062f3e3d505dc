import EventScript.Source.Expansion

/-!
# Nesting of conditional blocks

Some lines have a part in conditional blocks: they open, divide or close one. `Nested` says that the
blocks of a list of lines are well nested: each is closed once, with at most one `#else` at its own
level. `Enclosed` says which blocks a line stands in, given the parts of the lines above it. Both
are tied to `enclosing?`, which goes through the parts with a stack: `enclosing?_eq_some_iff` says
that the stack holds just the blocks a line stands in, so these are determined, and a list is nested
exactly if the stack ends empty.
-/

namespace EventScript

/-- The part that a line has in a conditional block. -/
inductive Part where
  | opens
  /-- It stands between the two branches. -/
  | divides
  | closes
deriving DecidableEq, Repr

/-- The part that a directive has in a conditional block. -/
def Directive.part? : Directive → Option Part
  | .opening .. => some .opens
  | .otherwise => some .divides
  | .closing => some .closes
  | _ => none

/-- The part that a source line has in a conditional block. -/
def SourceLine.part? (line : SourceLine) : Option Part :=
  line.directive.part?

namespace Source

/-- The blocks of lines with these parts are well nested. -/
inductive Nested : List (Option Part) → Prop where
  | nil : Nested []
  | plain {rest} : Nested rest → Nested (none :: rest)
  | block {body rest} : Nested body → Nested rest →
      Nested (some .opens :: (body ++ some .closes :: rest))
  | branches {body other rest} : Nested body → Nested other → Nested rest →
      Nested (some .opens :: (body ++ some .divides :: (other ++ some .closes :: rest)))

/-- A block that a line stands in. -/
structure Enclosure where
  /-- How many lines stand above the one that opens the block. -/
  opened : Nat
  /-- The line stands in the branch behind the `#else`. -/
  inElse : Bool
deriving DecidableEq, Repr

/-- A line with lines of the given parts above it stands in the given blocks, the innermost of which
comes first. Above it are the openings of these blocks and, where it stands behind the `#else`,
whole first branches; all else is nested. -/
inductive Enclosed : List (Option Part) → List Enclosure → Prop where
  | nil {above} : Nested above → Enclosed above []
  | first {above outer body} : Enclosed above outer → Nested body →
      Enclosed (above ++ some .opens :: body) (⟨above.length, false⟩ :: outer)
  | second {above outer body other} : Enclosed above outer → Nested body → Nested other →
      Enclosed (above ++ some .opens :: (body ++ some .divides :: other))
        (⟨above.length, true⟩ :: outer)

/-- The blocks that are open behind lines with these parts, if they keep to the rules. The first of
them follows `count` others. -/
def enclosing? (count : Nat) (enclosures : List Enclosure) :
    List (Option Part) → Option (List Enclosure)
  | [] => some enclosures
  | none :: rest => enclosing? (count + 1) enclosures rest
  | some .opens :: rest => enclosing? (count + 1) (⟨count, false⟩ :: enclosures) rest
  | some .divides :: rest =>
      match enclosures with
      | ⟨opened, false⟩ :: outer => enclosing? (count + 1) (⟨opened, true⟩ :: outer) rest
      | _ => none
  | some .closes :: rest =>
      match enclosures with
      | _ :: outer => enclosing? (count + 1) outer rest
      | [] => none

variable {parts first second above : List (Option Part)} {enclosures outer : List Enclosure}
  {count : Nat}

/-- Lines are gone through one list after the other. -/
theorem enclosing?_append :
    enclosing? count enclosures (first ++ second) =
      (enclosing? count enclosures first).bind fun after =>
        enclosing? (count + first.length) after second := by
  induction first generalizing count enclosures with
  | nil => rfl
  | cons part rest ih =>
      have hcount : count + (part :: rest).length = count + 1 + rest.length := by
        rw [List.length_cons, Nat.add_comm rest.length, Nat.add_assoc]
      rw [List.cons_append, hcount]
      cases part with
      | none => exact ih
      | some part =>
          cases part with
          | opens => exact ih
          | divides =>
              cases enclosures with
              | nil => rfl
              | cons enclosure outer =>
                  obtain ⟨opened, inElse⟩ := enclosure
                  cases inElse with
                  | false => exact ih
                  | true => rfl
          | closes =>
              cases enclosures with
              | nil => rfl
              | cons enclosure outer => exact ih

/-- Nested lines leave the open blocks as they are. -/
theorem Nested.enclosing? (h : Nested parts) (count : Nat) (enclosures : List Enclosure) :
    enclosing? count enclosures parts = some enclosures := by
  induction h generalizing count enclosures with
  | nil => rfl
  | plain _ ih => exact ih _ _
  | block _ _ ihbody ihrest =>
      rw [Source.enclosing?, enclosing?_append, ihbody]
      exact ihrest _ _
  | branches _ _ _ ihbody ihother ihrest =>
      rw [Source.enclosing?, enclosing?_append, ihbody, Option.bind_some, Source.enclosing?,
        enclosing?_append, ihother]
      exact ihrest _ _

/-- Nested lists can be put one behind the other. -/
theorem Nested.append (hfirst : Nested first) (hsecond : Nested second) :
    Nested (first ++ second) := by
  induction hfirst with
  | nil => exact hsecond
  | plain _ ih => exact .plain ih
  | block hbody _ _ ihrest =>
      rw [List.cons_append, List.append_assoc]
      exact .block hbody ihrest
  | branches hbody hother _ _ _ ihrest =>
      rw [List.cons_append, List.append_assoc, List.cons_append, List.append_assoc]
      exact .branches hbody hother ihrest

/-- Nested lines above a line do not change the blocks it stands in. -/
theorem Enclosed.append (h : Enclosed first enclosures) (hsecond : Nested second) :
    Enclosed (first ++ second) enclosures := by
  cases h with
  | nil hnested => exact .nil (hnested.append hsecond)
  | first houter hbody =>
      rw [List.append_assoc, List.cons_append]
      exact .first houter (hbody.append hsecond)
  | second houter hbody hother =>
      rw [List.append_assoc, List.cons_append, List.append_assoc, List.cons_append]
      exact .second houter hbody (hother.append hsecond)

/-- A line below one without a part in a block. -/
theorem Enclosed.plain (h : Enclosed above enclosures) : Enclosed (above ++ [none]) enclosures :=
  h.append (.plain .nil)

/-- The line below an opening. -/
theorem Enclosed.opening (h : Enclosed above enclosures) :
    Enclosed (above ++ [some .opens]) (⟨above.length, false⟩ :: enclosures) :=
  .first h .nil

/-- The line below an `#else`. -/
theorem Enclosed.otherwise {opened : Nat} (h : Enclosed above (⟨opened, false⟩ :: outer)) :
    Enclosed (above ++ [some .divides]) (⟨opened, true⟩ :: outer) := by
  cases h with
  | first houter hbody =>
      rw [List.append_assoc, List.cons_append]
      exact .second houter hbody .nil

/-- The line below a closing. -/
theorem Enclosed.closing {enclosure : Enclosure} (h : Enclosed above (enclosure :: outer)) :
    Enclosed (above ++ [some .closes]) outer := by
  cases h with
  | first houter hbody =>
      rw [List.append_assoc, List.cons_append]
      exact houter.append (.block hbody .nil)
  | second houter hbody hother =>
      rw [List.append_assoc, List.cons_append, List.append_assoc, List.cons_append]
      exact houter.append (.branches hbody hother .nil)

/-- The blocks a line stands in are those that are open above it. -/
theorem Enclosed.enclosing? (h : Enclosed above enclosures) :
    enclosing? 0 [] above = some enclosures := by
  induction h with
  | nil hnested => exact hnested.enclosing? 0 []
  | first _ hbody ih =>
      rw [enclosing?_append, ih, Option.bind_some, Source.enclosing?, hbody.enclosing?,
        Nat.zero_add]
  | second _ hbody hother ih =>
      rw [enclosing?_append, ih, Option.bind_some, Source.enclosing?, enclosing?_append,
        hbody.enclosing?, Option.bind_some, Source.enclosing?, hother.enclosing?, Nat.zero_add]

/-- A line stands in the blocks that are open behind the lines above it. -/
theorem Enclosed.of_enclosing? (h : Enclosed above enclosures) {after : List Enclosure}
    (hafter : Source.enclosing? above.length enclosures parts = some after) :
    Enclosed (above ++ parts) after := by
  induction parts generalizing above enclosures with
  | nil =>
      cases hafter
      rw [List.append_nil]
      exact h
  | cons part rest ih =>
      have hnext : ∀ {next}, Enclosed (above ++ [part]) next →
          Source.enclosing? (above.length + 1) next rest = some after →
          Enclosed (above ++ part :: rest) after := by
        intro next henclosed hrest
        have hwhole := ih henclosed (by simpa using hrest)
        rwa [List.append_assoc, List.singleton_append] at hwhole
      cases part with
      | none => exact hnext h.plain hafter
      | some part =>
          cases part with
          | opens => exact hnext h.opening hafter
          | divides =>
              cases enclosures with
              | nil => cases hafter
              | cons enclosure outer =>
                  obtain ⟨opened, inElse⟩ := enclosure
                  cases inElse with
                  | false => exact hnext h.otherwise hafter
                  | true => cases hafter
          | closes =>
              cases enclosures with
              | nil => cases hafter
              | cons enclosure outer => exact hnext h.closing hafter

/-- The stack behind lines holds just the blocks that the next line stands in. -/
theorem enclosing?_eq_some_iff :
    enclosing? 0 [] parts = some enclosures ↔ Enclosed parts enclosures :=
  ⟨fun h => Enclosed.of_enclosing? (.nil .nil) h, Enclosed.enclosing?⟩

/-- Lines are nested exactly if the line below them stands in no block. -/
theorem nested_iff_enclosed_nil : Nested parts ↔ Enclosed parts [] := by
  constructor
  · exact .nil
  · intro h
    cases h with
    | nil hnested => exact hnested

end Source

end EventScript
