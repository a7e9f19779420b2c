import Lookml.Draft
import Lookml.Proofs.Event.Balanced

/-!
What one event adds to a text. As long as a draft is in step with its writer no call is
refused, and an item is written as what sets it apart from the last one, its announcement,
and its own text.
-/

namespace Lookml

namespace Layout

/-- The text by which an item is announced: in an object the name of a property. -/
def announce (layout : Layout) : Scope → Event → String
  | _, .comment _ => ""
  | .object, event => spellName ((Draft.nameOf event).getD "") ++ ":" ++ layout.gap
  | .list, _ => ""

/-- The text of an event behind its announcement. -/
def spell (layout : Layout) : Event → String
  | .number _ value => value.toText
  | .truth _ value => wordOfTruth value
  | .string _ text => layout.spellString text
  | .identifier _ text => text
  | .code _ text => spellCode text
  | .pair reference text => layout.spellPair reference text
  | .list _ => "["
  | .object _ => "\x7b"
  | .named _ instanceName => instanceName ++ layout.gap ++ "\x7b"
  | .comment text => spellComment text ++ if layout.pretty then "" else "\n"
  | .close => ""

theorem toList_spell_list (layout : Layout) (name : Option String) :
    (layout.spell (.list name)).toList = ['['] := by
  simp [spell]

theorem toList_spell_object (layout : Layout) (name : String) :
    (layout.spell (.object name)).toList = ['{'] := by
  simp [spell]

def closer : Scope → String
  | .object => "\x7d"
  | .list => "]"

theorem toList_closer (scope : Scope) :
    (closer scope).toList = match scope with | .object => ['}'] | .list => [']'] := by
  cases scope <;> simp [closer]

end Layout

namespace Draft

/-- The scopes of a writer are those of a stream, with the document's last. -/
inductive InStep : List Writer.Open → OpenScopes → Prop
  | document {root : Writer.Open} (hroot : root.isRoot = true) (hscope : root.scope = .object) :
      InStep [root] []
  | inner {inner : Writer.Open} {outer : List Writer.Open} {scopes : OpenScopes}
      (hinner : inner.isRoot = false) (later : InStep outer scopes) :
      InStep (inner :: outer) (inner.scope :: scopes)

theorem InStep.exists_cons {opened : List Writer.Open} {scopes : OpenScopes}
    (h : InStep opened scopes) :
    ∃ inner outer, opened = inner :: outer ∧ inner.scope = scopes.current ∧
      ∀ next : Writer.Open, next.isRoot = inner.isRoot → next.scope = inner.scope →
        InStep (next :: outer) scopes := by
  cases h with
  | document hroot hscope =>
      exact ⟨_, _, rfl, hscope, fun next hnext hnext' =>
        .document (hnext.trans hroot) (hnext'.trans hscope)⟩
  | inner hinner later =>
      refine ⟨_, _, rfl, rfl, fun next hnext hnext' => ?_⟩
      rw [← hnext']
      exact .inner (hnext.trans hinner) later

section Steps
variable {layout : Layout} {output : String} {inner : Writer.Open} {outer : List Writer.Open}
  {scopes : OpenScopes}

def afterItem (inner : Writer.Open) (event : Event) : Writer.Open :=
  { inner with isEmpty := false, separate := !event.isComment }

theorem step_item {event : Event} (hscope : inner.scope = scopes.current)
    (hclose : event ≠ .close) :
    ((⟨⟨layout, output, inner :: outer⟩, scopes⟩ : Draft).step (.event event)).1 =
      ⟨⟨layout,
        output ++ (Writer.separator ⟨layout, output, inner :: outer⟩ inner ++
          (layout.announce scopes.current event ++ layout.spell event)),
        (event.opens?.map fun scope => ⟨scope, false, true, false⟩).toList ++
          afterItem inner event :: outer⟩,
        scopes.after event⟩ := by
  cases hcurrent : scopes.current with
  | object =>
      rw [hcurrent] at hscope
      cases event <;>
        simp_all [step, announce, attempt, Writer.key, Writer.innermost?, Writer.item, Writer.put,
          write, Layout.announce, Layout.spell, Event.opens?, OpenScopes.after, Writer.comment,
          Writer.number, Writer.truth, Writer.string, Writer.identifier, Writer.code, Writer.pair,
          Writer.beginList, Writer.beginObject, Writer.beginNamed, Writer.beginScope,
          afterItem, Event.isComment, String.append_assoc]
  | list =>
      rw [hcurrent] at hscope
      cases event <;>
        simp_all [step, announce, attempt, Writer.element, Writer.innermost?, Writer.item,
          Writer.put, write, Layout.announce, Layout.spell, Event.opens?, OpenScopes.after,
          Writer.comment, Writer.number, Writer.truth, Writer.string, Writer.identifier,
          Writer.code, Writer.pair, Writer.beginList, Writer.beginObject, Writer.beginNamed,
          Writer.beginScope, afterItem, Event.isComment, String.append_assoc]

/-- What ends a scope: the closing mark on a line of its own, if the scope was written on
several lines; the document ends with its last line. -/
def ending (layout : Layout) (inner : Writer.Open) (outer : List Writer.Open) : String :=
  (if layout.pretty && !inner.isEmpty then
    if inner.isRoot then "\n" else layout.newLine (Writer.indentDepth outer)
  else "") ++ if inner.isRoot then "" else Layout.closer inner.scope

theorem step_close (hscope : inner.scope = scopes.current) :
    ((⟨⟨layout, output, inner :: outer⟩, scopes⟩ : Draft).step (.event .close)).1 =
      ⟨⟨layout, output ++ ending layout inner outer, outer⟩, scopes.tail⟩ := by
  cases hcurrent : scopes.current with
  | object =>
      rw [hcurrent] at hscope
      simp [step, close, attempt, hcurrent, Writer.endObject, hscope, Writer.leave, ending,
        Layout.closer, String.append_assoc]
  | list =>
      rw [hcurrent] at hscope
      simp [step, close, attempt, hcurrent, Writer.endList, hscope, Writer.leave, ending,
        Layout.closer, String.append_assoc]

theorem step_refuses_nothing (hscope : inner.scope = scopes.current) (event : Event) :
    ((⟨⟨layout, output, inner :: outer⟩, scopes⟩ : Draft).step (.event event)).2 = [] := by
  cases hcurrent : scopes.current with
  | object =>
      rw [hcurrent] at hscope
      cases event <;>
        simp [step, close, announce, attempt, hcurrent, hscope, Writer.key, Writer.innermost?,
          Writer.endObject]
  | list =>
      rw [hcurrent] at hscope
      cases event <;>
        simp [step, close, announce, attempt, hcurrent, hscope, Writer.element, Writer.innermost?,
          Writer.endList]

end Steps

end Draft

end Lookml
