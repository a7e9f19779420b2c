import Lookml.Pipeline
import Lookml.Proofs.Tree.Retold
import Lookml.Proofs.Writer.RoundTrip

/-!
Documents printed by recursion. What a scope is printed as depends on its items alone, and
each of them on the tree below it; a writer, which is told one event after another and
looks no further than its innermost scope, writes the same. A text that is written anew as
it is read is therefore the print of the tree that is read from it.
-/

namespace Lookml

/-- An item of a scope in print: a comment, or a value with the name that announces it. -/
structure Printed where
  isComment : Bool
  text : String

def Printed.comment (text : String) : Printed := ⟨true, Layout.spellComment text⟩

namespace Layout

/-- Items one below the other. In a list a comma stands behind each but the last, comments
apart. -/
def lines (scope : Scope) : List Printed → List String
  | [] => []
  | item :: rest =>
      (item.text ++ if scope == .list && !item.isComment && !rest.isEmpty then "," else "") ::
        lines scope rest

/-- Items one behind the other. A comment ends its line, and a comma stands between any
other item and the next. -/
def row : List Printed → String
  | [] => ""
  | item :: rest =>
      item.text ++
        ((if item.isComment then "\n" else if rest.isEmpty then "" else ", ") ++ row rest)

def opener : Scope → String
  | .object => "\x7b"
  | .list => "["

/-- A scope in brackets at some depth. What is not empty takes lines of its own, and so
does its closing bracket. -/
def enclose (layout : Layout) (scope : Scope) (depth : Nat) (items : List Printed) : String :=
  opener scope ++
    ((if layout.pretty && !items.isEmpty then
      String.join ((lines scope items).map (layout.newLine (depth + 1) ++ ·)) ++
        layout.newLine depth
    else row items) ++ closer scope)

/-- The items of a document, which has no brackets and whose lines have no indent. -/
def whole (layout : Layout) (items : List Printed) : String :=
  if layout.pretty then String.join ((lines .object items).map (· ++ "\n")) else row items

end Layout

section Print
variable (layout : Layout)

mutual
/-- The text of a value at some depth, whatever announces it. -/
def Value.print (depth : Nat) : Value → String
  | .number value => value.toText
  | .string text => layout.spellString text
  | .boolean value => wordOfTruth value
  | .identifier text => text
  | .code text => Layout.spellCode text
  | .pair reference text => layout.spellPair reference text
  | .list elements => layout.enclose .list depth (elements.printed (depth + 1))
  | .object members => layout.enclose .object depth (members.printed (depth + 1))
  | .named instanceName members =>
      instanceName ++ (layout.gap ++ layout.enclose .object depth (members.printed (depth + 1)))

/-- The items of an object at some depth; a value that is no property is left out, but not
the comments before it. -/
def Members.printed (depth : Nat) : Members → List Printed
  | .ending comments => comments.map .comment
  | .member comments name value rest =>
      comments.map .comment ++
        ((if value.isProperty then
          [⟨false, Layout.spellName name ++ ":" ++ layout.gap ++ value.print depth⟩]
        else []) ++ rest.printed depth)

def Elements.printed (depth : Nat) : Elements → List Printed
  | .ending comments => comments.map .comment
  | .element comments value rest =>
      comments.map .comment ++
        ((if value.isElement then [⟨false, value.print depth⟩] else []) ++ rest.printed depth)
end

def Members.print (document : Document) : String := layout.whole (Members.printed layout 0 document)

end Print

/-! How a writer sets items one after another, knowing of the innermost scope only whether
it is empty and whether its last item needs to be set apart. -/

namespace Writer.Open

/-- A scope in which a further item has been written. -/
def after (inner : Open) (isComment : Bool) : Open :=
  { inner with isEmpty := false, separate := !isComment }

@[simp] theorem after_scope (inner : Open) (isComment : Bool) :
    (inner.after isComment).scope = inner.scope := rfl

@[simp] theorem after_isRoot (inner : Open) (isComment : Bool) :
    (inner.after isComment).isRoot = inner.isRoot := rfl

@[simp] theorem after_isEmpty (inner : Open) (isComment : Bool) :
    (inner.after isComment).isEmpty = false := rfl

@[simp] theorem after_separate (inner : Open) (isComment : Bool) :
    (inner.after isComment).separate = !isComment := rfl

def afterAll (inner : Open) (items : List Printed) : Open :=
  items.foldl (fun inner item => inner.after item.isComment) inner

@[simp] theorem afterAll_nil (inner : Open) : inner.afterAll [] = inner := rfl

@[simp] theorem afterAll_cons (inner : Open) (item : Printed) (items : List Printed) :
    inner.afterAll (item :: items) = (inner.after item.isComment).afterAll items := rfl

theorem afterAll_append (inner : Open) (items items' : List Printed) :
    inner.afterAll (items ++ items') = (inner.afterAll items).afterAll items' :=
  List.foldl_append

@[simp] theorem afterAll_scope (inner : Open) (items : List Printed) :
    (inner.afterAll items).scope = inner.scope := by
  induction items generalizing inner with
  | nil => rfl
  | cons item items ih => exact ih _

@[simp] theorem afterAll_isRoot (inner : Open) (items : List Printed) :
    (inner.afterAll items).isRoot = inner.isRoot := by
  induction items generalizing inner with
  | nil => rfl
  | cons item items ih => exact ih _

@[simp] theorem afterAll_isEmpty (inner : Open) (items : List Printed) :
    (inner.afterAll items).isEmpty = (inner.isEmpty && items.isEmpty) := by
  induction items generalizing inner with
  | nil => simp
  | cons item items ih => simp [ih]

end Writer.Open

theorem Writer.indentDepth_cons (inner : Open) (outer : List Open) :
    indentDepth (inner :: outer) = indentDepth outer + if inner.isRoot then 0 else 1 := by
  cases h : inner.isRoot <;> simp [indentDepth, h]

namespace Layout

variable (layout : Layout) (depth : Nat)

/-- What sets the next item of a scope apart. -/
def separator (inner : Writer.Open) : String :=
  if layout.pretty then
    (if inner.separate && inner.scope == .list then "," else "") ++
      if inner.isEmpty && inner.isRoot then "" else layout.newLine depth
  else if inner.separate then ", " else ""

def laid : Writer.Open → List Printed → String
  | _, [] => ""
  | inner, item :: rest =>
      layout.separator depth inner ++
        (item.text ++ ((if item.isComment && !layout.pretty then "\n" else "") ++
          laid (inner.after item.isComment) rest))

theorem laid_append (inner : Writer.Open) (items items' : List Printed) :
    layout.laid depth inner (items ++ items') =
      layout.laid depth inner items ++ layout.laid depth (inner.afterAll items) items' := by
  induction items generalizing inner with
  | nil => simp [laid]
  | cons item items ih => simp [laid, ih, String.append_assoc]

variable {layout}

/-- On several lines only the comma of the item before is still to be written. -/
theorem laid_pretty (hpretty : layout.pretty = true) {inner : Writer.Open}
    (hstart : (inner.isEmpty && inner.isRoot) = false) (items : List Printed) :
    layout.laid depth inner items =
      (if inner.scope == .list && inner.separate && !items.isEmpty then "," else "") ++
        String.join ((lines inner.scope items).map (layout.newLine depth ++ ·)) := by
  induction items generalizing inner with
  | nil => simp [laid, lines]
  | cons item items ih =>
      have hlater : layout.laid depth (inner.after item.isComment) items = _ := ih rfl
      simp only [laid, hlater, separator, hpretty, hstart]
      simp [lines, String.append_assoc, Bool.and_comm]

theorem laid_compact (hcompact : layout.pretty = false) (inner : Writer.Open)
    (items : List Printed) :
    layout.laid depth inner items =
      (if inner.separate && !items.isEmpty then ", " else "") ++ row items := by
  induction items generalizing inner with
  | nil => simp [laid, row]
  | cons item items ih =>
      simp only [laid, ih, separator, hcompact]
      cases hcomment : item.isComment <;> cases items <;> simp [row, hcomment]

/-- A scope is opened, filled and ended as it is enclosed. -/
theorem laid_enclosed (scope : Scope) (outer : List Writer.Open) (items : List Printed) :
    opener scope ++
        (layout.laid (Writer.indentDepth outer + 1) ⟨scope, false, true, false⟩ items ++
          Draft.ending layout (Writer.Open.afterAll ⟨scope, false, true, false⟩ items) outer) =
      layout.enclose scope (Writer.indentDepth outer) items := by
  cases hpretty : layout.pretty with
  | true =>
      rw [laid_pretty _ hpretty rfl]
      cases items <;> simp [Draft.ending, enclose, hpretty, row, lines, String.append_assoc]
  | false =>
      rw [laid_compact _ hpretty]
      simp [Draft.ending, enclose, hpretty]

private theorem join_lines (first : String) (later : List String) :
    first ++ (String.join (later.map ("\n" ++ ·)) ++ "\n") =
      String.join ((first :: later).map (· ++ "\n")) := by
  induction later generalizing first with
  | nil => simp
  | cons next later ih =>
      have hlater := ih next
      simp only [List.map_cons, String.join_cons, String.append_assoc] at hlater ⊢
      rw [hlater]

/-- The first item of a document starts the text, and its last one ends the last line. -/
theorem laid_whole (items : List Printed) :
    layout.laid 0 ⟨.object, true, true, false⟩ items ++
        Draft.ending layout (Writer.Open.afterAll ⟨.object, true, true, false⟩ items) [] =
      layout.whole items := by
  cases hpretty : layout.pretty with
  | true =>
      cases items with
      | nil => simp [laid, Draft.ending, whole, lines, hpretty]
      | cons item items =>
          have hline : layout.newLine 0 = "\n" := by simp [newLine]
          have hlater : layout.laid 0
              (Writer.Open.after ⟨.object, true, true, false⟩ item.isComment) items = _ :=
            laid_pretty 0 hpretty rfl items
          have hlines := join_lines item.text (lines .object items)
          simp_all [laid, separator, Draft.ending, whole, lines,
            String.append_assoc]
  | false =>
      rw [laid_compact _ hpretty]
      simp [Draft.ending, whole, hpretty]

end Layout

namespace Draft

def tell (draft : Draft) (events : List Event) : Draft := draft.run (events.map .event)

theorem tell_cons (draft : Draft) (event : Event) (events : List Event) :
    draft.tell (event :: events) = (draft.step (.event event)).1.tell events := rfl

theorem tell_append (draft : Draft) (events events' : List Event) :
    draft.tell (events ++ events') = (draft.tell events).tell events' := by
  simp only [tell, run, List.map_append, List.foldl_append]

theorem tell_wholeDocument (draft : Draft) (events : List Event) :
    draft.run (wholeDocument events) = (draft.tell events).tell [.close] := by
  simp only [wholeDocument, tell, run, List.foldl_append, List.map_cons, List.map_nil]

/-- A draft whose writer stands in a scope with the given outer ones. -/
def within (layout : Layout) (output : String) (inner : Writer.Open) (outer : List Writer.Open)
    (scopes : OpenScopes) : Draft :=
  ⟨⟨layout, output, inner :: outer⟩, scopes⟩

/-- Told in a scope, the events are written as the items that stand for them at its depth.
The text is empty before the first item of a document. -/
def Prints (layout : Layout) (scope : Scope) (events : List Event) (items : Nat → List Printed) :
    Prop :=
  ∀ (output : String) (inner : Writer.Open) (outer : List Writer.Open) (scopes : OpenScopes),
    inner.scope = scope → scopes.current = scope →
      ((inner.isEmpty && inner.isRoot) = true → output = "") →
      let depth := Writer.indentDepth (inner :: outer)
      (within layout output inner outer scopes).tell events =
        within layout (output ++ layout.laid depth inner (items depth))
          (inner.afterAll (items depth)) outer scopes

namespace Prints

variable {layout : Layout} {scope : Scope} {events events' : List Event}
  {items items' : Nat → List Printed}

theorem nil : Prints layout scope [] fun _ => [] := by
  intro output inner outer scopes hinner hscopes hstart
  simp [tell, run, within, Layout.laid]

theorem append (h : Prints layout scope events items) (h' : Prints layout scope events' items') :
    Prints layout scope (events ++ events') fun depth => items depth ++ items' depth := by
  intro output inner outer scopes hinner hscopes hstart
  have hdepth (items : List Printed) : Writer.indentDepth (inner.afterAll items :: outer) =
      Writer.indentDepth (inner :: outer) := by
    rw [Writer.indentDepth_cons, Writer.indentDepth_cons, Writer.Open.afterAll_isRoot]
  have hevents' := h' (output ++ layout.laid (Writer.indentDepth (inner :: outer)) inner
    (items (Writer.indentDepth (inner :: outer)))) (inner.afterAll
      (items (Writer.indentDepth (inner :: outer)))) outer scopes (by simp [hinner]) hscopes ?_
  · simp only [hdepth] at hevents'
    simp only [tell_append, h output inner outer scopes hinner hscopes hstart, hevents',
      Layout.laid_append, Writer.Open.afterAll_append, String.append_assoc]
  · -- A document that is still empty behind the first events has had no item from them.
    intro hempty
    simp only [Writer.Open.afterAll_isEmpty, Writer.Open.afterAll_isRoot, Bool.and_eq_true,
      List.isEmpty_iff] at hempty
    obtain ⟨⟨hempty, hnone⟩, hroot⟩ := hempty
    rw [hstart (by rw [hempty, hroot]; rfl), hnone]
    rfl

private theorem separator_eq {output : String} {inner : Writer.Open} {outer : List Writer.Open}
    (hstart : (inner.isEmpty && inner.isRoot) = true → output = "") :
    Writer.separator ⟨layout, output, inner :: outer⟩ inner =
      layout.separator (Writer.indentDepth (inner :: outer)) inner := by
  unfold Writer.separator Layout.separator
  cases hfirst : inner.isEmpty && inner.isRoot with
  | true => simp [hstart hfirst]
  | false => simp

/-- An event that opens nothing is written as the item with its text. -/
theorem leaf {event : Event} {text : String} (hopens : event.opens? = none)
    (hclose : event ≠ .close)
    (htext : layout.announce scope event ++ layout.spell event =
      text ++ if event.isComment && !layout.pretty then "\n" else "") :
    Prints layout scope [event] fun _ => [⟨event.isComment, text⟩] := by
  intro output inner outer scopes hinner hscopes hstart
  have hstep := @step_item layout output inner outer scopes event (hinner.trans hscopes.symm) hclose
  simp only [hopens, OpenScopes.after_eq_self hopens hclose, separator_eq hstart, hscopes,
    htext] at hstep
  simp only [within, tell_cons, hstep]
  simp [tell, run, Layout.laid, Writer.Open.after, afterItem]

theorem scalar {event : Event} (hopens : event.opens? = none) (hclose : event ≠ .close)
    (hcomment : event.isComment = false) :
    Prints layout scope [event] fun _ =>
      [⟨false, layout.announce scope event ++ layout.spell event⟩] := by
  rw [← hcomment]
  exact leaf hopens hclose (by simp [hcomment])

theorem comments (texts : List String) :
    Prints layout scope (Event.comments texts) fun _ => texts.map .comment := by
  induction texts with
  | nil => exact nil
  | cons text texts ih =>
      have htext : layout.announce scope (.comment text) ++ layout.spell (.comment text) =
          Layout.spellComment text ++ if !layout.pretty then "\n" else "" := by
        cases scope <;> cases hpretty : layout.pretty <;>
          simp [Layout.announce, Layout.spell, hpretty]
      exact (leaf rfl Event.noConfusion htext).append ih

/-- A scope that has just been opened is filled with its items and closed. -/
theorem fill (h : Prints layout scope events items) (output : String) (outer : List Writer.Open)
    (scopes : OpenScopes) :
    (within layout (output ++ Layout.opener scope) ⟨scope, false, true, false⟩ outer
        (scope :: scopes)).tell (events ++ [.close]) =
      ⟨⟨layout, output ++ layout.enclose scope (Writer.indentDepth outer)
        (items (Writer.indentDepth outer + 1)), outer⟩, scopes⟩ := by
  have hdepth : Writer.indentDepth (⟨scope, false, true, false⟩ :: outer) =
      Writer.indentDepth outer + 1 := by
    simp [Writer.indentDepth_cons]
  have hevents := h (output ++ Layout.opener scope) ⟨scope, false, true, false⟩ outer
    (scope :: scopes) rfl rfl (by simp)
  simp only [hdepth] at hevents
  have hscope : (Writer.Open.afterAll ⟨scope, false, true, false⟩
      (items (Writer.indentDepth outer + 1))).scope = OpenScopes.current (scope :: scopes) :=
    Writer.Open.afterAll_scope _ _
  rw [tell_append, hevents, within, tell_cons, step_close hscope, ← Layout.laid_enclosed,
    String.append_assoc, String.append_assoc]
  rfl

/-- A scope that is opened, filled and closed is written as the item that encloses the
items inside. -/
theorem enclosed {event : Event} {inside : Scope} (front : String)
    (hopens : event.opens? = some inside)
    (hspell : layout.spell event = front ++ Layout.opener inside)
    (h : Prints layout inside events items) :
    Prints layout scope (event :: (events ++ [.close])) fun depth =>
      [⟨false, layout.announce scope event ++
        (front ++ layout.enclose inside depth (items (depth + 1)))⟩] := by
  intro output inner outer scopes hinner hscopes hstart
  have hclose : event ≠ .close := Forest.ne_close_of_opens hopens
  have hcomment : event.isComment = false := by
    cases event <;> first | rfl | cases hopens
  have hstep := @step_item layout output inner outer scopes event (hinner.trans hscopes.symm) hclose
  have hdepth : Writer.indentDepth (inner.after false :: outer) =
      Writer.indentDepth (inner :: outer) := by
    rw [Writer.indentDepth_cons, Writer.indentDepth_cons, Writer.Open.after_isRoot]
  have hafter : afterItem inner event = inner.after false := by
    rw [afterItem, hcomment, Writer.Open.after]
  have hfill := h.fill (output ++ (layout.separator (Writer.indentDepth (inner :: outer)) inner ++
    (layout.announce scope event ++ front))) (inner.after false :: outer) scopes
  simp only [hopens, OpenScopes.after_eq_cons hopens, separator_eq hstart, hscopes, hspell,
    hafter] at hstep
  simp only [hdepth, within, String.append_assoc] at hfill hstep ⊢
  rw [tell_cons, hstep]
  simpa [Layout.laid, String.append_assoc] using hfill

theorem congr (h : Prints layout scope events items) (heq : ∀ depth, items depth = items' depth) :
    Prints layout scope events items' :=
  funext heq ▸ h

end Prints

end Draft

section Trees
variable (layout : Layout)

open Draft (Prints)

mutual
theorem Value.prints_property (name : String) (value : Value) :
    Prints layout .object (value.asProperty name) fun depth =>
      if value.isProperty then
        [⟨false, Layout.spellName name ++ ":" ++ layout.gap ++ value.print layout depth⟩]
      else [] := by
  cases value with
  | pair reference text => exact .nil
  | list elements =>
      refine (Prints.enclosed "" rfl (by simp [Layout.spell, Layout.opener])
        (Elements.prints elements)).congr fun depth => ?_
      simp [Value.isProperty, Value.print, Layout.announce, Draft.nameOf]
  | object members =>
      refine (Prints.enclosed "" rfl (by simp [Layout.spell, Layout.opener])
        (Members.prints members)).congr fun depth => ?_
      simp [Value.isProperty, Value.print, Layout.announce, Draft.nameOf]
  | named instanceName members =>
      refine (Prints.enclosed (instanceName ++ layout.gap) rfl
        (by simp [Layout.spell, Layout.opener]) (Members.prints members)).congr fun depth => ?_
      simp [Value.isProperty, Value.print, Layout.announce, Draft.nameOf, String.append_assoc]
  | number value | string text | boolean value | identifier text | code text =>
      refine (Prints.scalar rfl Event.noConfusion rfl).congr fun depth => ?_
      simp [Value.isProperty, Value.print, Layout.announce, Layout.spell, Draft.nameOf]

theorem Value.prints_element (value : Value) :
    Prints layout .list value.asElement fun depth =>
      if value.isElement then [⟨false, value.print layout depth⟩] else [] := by
  cases value with
  | code text => exact .nil
  | object members => exact .nil
  | named instanceName members => exact .nil
  | list elements =>
      refine (Prints.enclosed "" rfl (by simp [Layout.spell, Layout.opener])
        (Elements.prints elements)).congr fun depth => ?_
      simp [Value.isElement, Value.print, Layout.announce]
  | number value | string text | boolean value | identifier text | pair reference text =>
      refine (Prints.scalar rfl Event.noConfusion rfl).congr fun depth => ?_
      simp [Value.isElement, Value.print, Layout.announce, Layout.spell]

theorem Members.prints (members : Members) :
    Prints layout .object members.events fun depth => members.printed layout depth := by
  cases members with
  | ending comments => exact .comments comments
  | member comments name value rest =>
      exact (Prints.comments comments).append
        ((Value.prints_property name value).append (Members.prints rest))

theorem Elements.prints (elements : Elements) :
    Prints layout .list elements.events fun depth => elements.printed layout depth := by
  cases elements with
  | ending comments => exact .comments comments
  | element comments value rest =>
      exact (Prints.comments comments).append
        ((Value.prints_element value).append (Elements.prints rest))
end

/-- Told a whole document, a draft is closed with the print of it. -/
theorem Draft.run_document (document : Document) :
    (Draft.new layout).run (wholeDocument (Members.events document)) =
      ⟨⟨layout, Members.print layout document, []⟩, []⟩ := by
  have htold : (Draft.new layout).tell (Members.events document) = _ :=
    Members.prints layout document "" ⟨.object, true, true, false⟩ [] [] rfl rfl fun _ => rfl
  have hscope : (Writer.Open.afterAll ⟨.object, true, true, false⟩
      (Members.printed layout 0 document)).scope = OpenScopes.current [] :=
    Writer.Open.afterAll_scope _ _
  have hdepth : Writer.indentDepth [⟨.object, true, true, false⟩] = 0 := rfl
  rw [tell_wholeDocument, htold, hdepth, within, tell_cons, step_close hscope, String.append_assoc,
    Layout.laid_whole, String.empty_append]
  rfl

theorem Members.textOfStream_events (document : Document) :
    textOfStream layout (wholeDocument (Members.events document)) =
      Members.print layout document := by
  rw [textOfStream, Draft.run_document]

end Trees

/-- A draft that is in step with its writer stays so to the end of the document, and no
call is refused. -/
theorem Draft.InStep.logOf_eq_nil {layout : Layout} {output : String} {opened : List Writer.Open}
    {scopes : OpenScopes} {events : List Event} (hstep : Draft.InStep opened scopes)
    (hevents : Leads OpenScopes.Takes scopes events []) (violations : Bool) :
    logOf violations (some ⟨⟨layout, output, opened⟩, scopes⟩)
      ((wholeDocument events).map .delivered) = [] := by
  induction events generalizing output opened scopes with
  | nil =>
      obtain ⟨inner, outer, rfl, hscope, -⟩ := hstep.exists_cons
      have hrefused := @step_refuses_nothing layout output inner outer scopes hscope .close
      simp [wholeDocument, logOf, hrefused]
  | cons event events ih =>
      obtain ⟨⟨hopened, -⟩, hlater⟩ := hevents
      obtain ⟨inner, outer, rfl, hscope, hkeeps⟩ := hstep.exists_cons
      have hrefused := @step_refuses_nothing layout output inner outer scopes hscope event
      have hlog (draft : Draft) : logOf violations (some draft)
          ((wholeDocument (event :: events)).map .delivered) =
          (draft.step (.event event)).2.map .outOfStep ++
            logOf violations (some (draft.step (.event event)).1)
              ((wholeDocument events).map .delivered) := rfl
      rw [hlog, hrefused, List.map_nil, List.nil_append]
      by_cases hclose : event = .close
      · subst hclose
        cases hstep with
        | document => exact absurd rfl (hopened rfl)
        | inner hinner houter =>
            rw [step_close rfl]
            exact ih houter hlater
      · rw [step_item hscope hclose]
        exact ih (Draft.InStep.item hclose hkeeps) hlater

/-- Every document is written as it is printed by recursion. The writer is never out of
step with what it is told, and no scope is left open. -/
theorem Members.format_eq_print (layout : Layout) (document : Document) :
    Members.format layout document = Members.print layout document ∧
      ((Draft.new layout).run (wholeDocument (Members.events document))).writer.opened = [] ∧
      logOf true (some (Draft.new layout))
        ((wholeDocument (Members.events document)).map .delivered) = [] := by
  have hstep : Draft.InStep (Draft.new layout).writer.opened [] := .document rfl rfl
  refine ⟨Members.textOfStream_events layout document, ?_,
    hstep.logOf_eq_nil (Members.balanced_events document) true⟩
  rw [Draft.run_document]

/-- To write a text anew as its events are read comes to the same as to read its tree
first and write that, whether the reading fails or not. -/
theorem reformat_eq_format_read (code : Names) (layout : Layout) (source : List Char) :
    reformat code layout source = (Document.read code source).map (Members.format layout) := by
  obtain ⟨document, hstream, -, hevents⟩ :=
    Document.ofStream?_retold (Reading.balanced code source)
  cases hreading : Reading.ofText code source with
  | mk events failure =>
      simp only [hreading] at hstream hevents
      cases failure with
      | some error => simp [reformat, Document.read, hreading, Except.map]
      | none =>
          have hread : Document.read code source = .ok document := by
            simp [Document.read, hreading, Document.ofEvents, hstream]
          rw [reformat_of_read hreading, hread, Except.map, Members.format, hevents]

end Lookml
