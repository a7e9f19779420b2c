import Lookml.Draft
import Lookml.Proofs.Event.Spelled

/-!
What becomes of an event when it is written and read again. A comment comes back on one
line, and a zero comes back without its sign; all else comes back as it was.
-/

namespace Lookml

def onOneLine (text : String) : String :=
  String.ofList (text.toList.map fun c => if c == '\n' || c == '\r' then ' ' else c)

theorem toList_spellComment (text : String) :
    (Layout.spellComment text).toList = '#' :: (onOneLine text).toList := by
  rw [Layout.spellComment, onOneLine, String.toList_ofList, String.toList_ofList]

theorem isLine_onOneLine (text : String) : IsLine (onOneLine text).toList := by
  intro c hc
  rw [onOneLine, String.toList_ofList, List.mem_map] at hc
  obtain ⟨d, -, rfl⟩ := hc
  split
  · rfl
  · rename_i hd
    rw [Token.isLineEnd]
    exact Bool.eq_false_iff.mpr hd

theorem onOneLine_of_isLine {text : String} (h : IsLine text.toList) : onOneLine text = text := by
  have hsame : text.toList.map (fun c => if c == '\n' || c == '\r' then ' ' else c) =
      text.toList.map id := by
    apply List.map_congr_left
    intro c hc
    have hline := h c hc
    rw [Token.isLineEnd] at hline
    simp [hline]
  rw [onOneLine, hsame, List.map_id, String.ofList_toList]

namespace Event

def readBack : Event → Event
  | .comment text => .comment (onOneLine text)
  | .number name value => .number name value.readBack
  | event => event

/-- Equality of events, with numbers compared as values. -/
def same : Event → Event → Bool
  | .number name value, .number name' value' => name == name' && value.same value'
  | event, event' => event == event'

theorem readBack_same {event : Event} (hreadable : event.Readable) (hfinite : event.IsFinite) :
    event.readBack.same event = true := by
  cases event with
  | comment text => simp [readBack, same, onOneLine_of_isLine hreadable]
  | number name value => simp [readBack, same, Number.same_readBack hfinite]
  | _ => exact beq_self_eq_true _

end Event

theorem isEqv_map_readBack {events : List Event} (hreadable : ∀ event ∈ events, event.Readable)
    (hfinite : ∀ event ∈ events, event.IsFinite) :
    (events.map Event.readBack).isEqv events Event.same = true := by
  induction events with
  | nil => rfl
  | cons event events ih =>
      rw [List.map_cons, List.isEqv, Bool.and_eq_true]
      refine ⟨Event.readBack_same (hreadable event List.mem_cons_self)
        (hfinite event List.mem_cons_self), ?_⟩
      exact ih (fun other hother => hreadable other (List.mem_cons_of_mem _ hother))
        (fun other hother => hfinite other (List.mem_cons_of_mem _ hother))

namespace Draft

/-- What comes back is written as before. -/
theorem step_readBack {draft : Draft} {event : Event} (hfinite : event.IsFinite) :
    draft.step (.event event.readBack) = draft.step (.event event) := by
  cases event with
  | comment text =>
      have hspell : Layout.spellComment (onOneLine text) = Layout.spellComment text := by
        rw [← String.toList_inj, toList_spellComment, toList_spellComment,
          onOneLine_of_isLine (isLine_onOneLine text)]
      simp [Event.readBack, step, Writer.comment, hspell]
  | number name value =>
      have htext : value.readBack.toText = value.toText := by
        rw [Number.toText, Number.toText, Number.text_readBack hfinite]
      simp [Event.readBack, step, write, Writer.number, htext, OpenScopes.after, Event.opens?,
        announce, nameOf]
  | _ => rfl

end Draft

/-- Events that are written like others give the same text. -/
theorem textOfStream_map {layout : Layout} {other : Event → Event} {events : List Event}
    (hsame : ∀ event ∈ events, ∀ draft : Draft,
      draft.step (.event (other event)) = draft.step (.event event)) :
    textOfStream layout (wholeDocument (events.map other)) =
      textOfStream layout (wholeDocument events) := by
  have hrun (draft : Draft) : draft.run ((events.map other).map .event) =
      draft.run (events.map .event) := by
    induction events generalizing draft with
    | nil => rfl
    | cons event events ih =>
        obtain ⟨hevent, hevents⟩ := List.forall_mem_cons.mp hsame
        simp only [Draft.run, List.map_cons, List.foldl_cons, hevent draft]
        exact ih hevents _
  have hdraft := hrun (Draft.new layout)
  simp only [Draft.run] at hdraft
  simp only [textOfStream, wholeDocument, Draft.run, List.foldl_append, hdraft]

theorem textOfStream_readBack {layout : Layout} {events : List Event}
    (hfinite : ∀ event ∈ events, event.IsFinite) :
    textOfStream layout (wholeDocument (events.map Event.readBack)) =
      textOfStream layout (wholeDocument events) :=
  textOfStream_map fun event hmem _ => Draft.step_readBack (hfinite event hmem)

end Lookml
