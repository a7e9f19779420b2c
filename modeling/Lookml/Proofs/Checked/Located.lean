import Lookml.Diagnosis
import Lookml.Proofs.Checked.Lexer
import Lookml.Proofs.Reader.Bounded
import Lookml.Proofs.Reader.Path
import Lookml.Proofs.Text.Place

/-!
Where errors lie. Whatever span a reader keeps is that of a lexeme, so the span of an
error lies in the text, between two characters at either end: it can be cut out, its place
can be told, and there is something to mark.
-/

namespace Lookml

namespace Checked

/-- The place where a span starts. A line that starts behind its end is not expected. -/
def place (span : Span) (source : List Char) : Except Trap Place := do
  let before ← slice source 0 (min span.start (byteLength source))
  match lastLineEnd? before with
  | some offset => do
      let line ← Checked.span (offset + 1) (byteLength before)
      return ⟨before.count '\n' + 1, line.length + 1⟩
  | none => return ⟨before.count '\n' + 1, byteLength before + 1⟩

section Splits
variable {source : List Char} {offset : Nat}

theorem splits_iff : Splits source offset ↔
    ∃ front back, source = front ++ back ∧ offset = byteLength front := by
  constructor
  · intro h
    exact ⟨takeBytes offset source, dropBytes offset source,
      (takeBytes_append_dropBytes offset source).symm, h.symm⟩
  · rintro ⟨front, back, rfl, rfl⟩
    exact splits_append front back

theorem Splits.le (h : Splits source offset) : offset ≤ byteLength source := by
  obtain ⟨front, back, rfl, rfl⟩ := splits_iff.mp h
  rw [byteLength_append]
  exact Nat.le_add_right _ _

theorem Fits.splits {cursor : Cursor} (h : Fits source cursor) : Splits source cursor.offset := by
  obtain ⟨front, hsource, hoffset⟩ := Cursor.stands_iff.mp h.stands
  exact splits_iff.mpr ⟨front, cursor.rest, hsource, hoffset⟩

theorem place_of_splits {span : Span} (h : Splits source span.start) :
    place span source = .ok (span.place source) := by
  obtain ⟨front, back, hsource, hstart⟩ := splits_iff.mp h
  have hmin : min span.start (byteLength source) = byteLength front := by
    rw [Nat.min_eq_left h.le, hstart]
  have hbefore : slice source 0 (byteLength front) = .ok front := by
    have hslice := slice_append [] front back
    rwa [byteLength_nil, Nat.zero_add, List.nil_append, ← hsource] at hslice
  have hplace : span.place source = Place.after front := by
    rw [Span.place, Place.ofOffset, hstart, hsource, takeBytes_byteLength]
  rw [place, hmin, hbefore, hplace, ok_bind]
  cases hlast : lastLineEnd? front with
  | none =>
      rw [Place.after_of_not_mem (lastLineEnd?_eq_none hlast),
        List.count_eq_zero.mpr (lastLineEnd?_eq_none hlast)]
      rfl
  | some offset =>
      obtain ⟨before, line, rfl, hline, rfl⟩ := lastLineEnd?_eq_some hlast
      have hordered : byteLength before + 1 ≤ byteLength (before ++ '\n' :: line) := by
        rw [byteLength_lines]
        exact Nat.le_add_right _ _
      have hlength : byteLength (before ++ '\n' :: line) - (byteLength before + 1) =
          byteLength line := by
        rw [byteLength_lines, Nat.add_sub_cancel_left]
      simp only [Checked.span, if_pos hordered, ok_bind, Span.length, hlength,
        Place.after_line hline, List.count_append, List.count_cons_self,
        List.count_eq_zero.mpr hline]
      rfl

end Splits

end Checked

/-- A span of a text, with whole characters in front of both its ends. -/
structure Span.Within (source : List Char) (span : Span) : Prop where
  ordered : span.start ≤ span.stop
  start : Checked.Splits source span.start
  stop : Checked.Splits source span.stop

namespace Span.Within

variable {source : List Char} {span other : Span}

theorem cover (h : span.Within source) (hother : other.Within source) :
    (span.cover other).Within source := by
  refine ⟨?_, ?_, ?_⟩
  · exact Nat.le_trans (Nat.min_le_left _ _) (Nat.le_trans h.ordered (Nat.le_max_left _ _))
  · rcases Nat.le_total span.start other.start with hle | hle
    · simpa only [Span.cover, Nat.min_eq_left hle] using h.start
    · simpa only [Span.cover, Nat.min_eq_right hle] using hother.start
  · rcases Nat.le_total span.stop other.stop with hle | hle
    · simpa only [Span.cover, Nat.max_eq_right hle] using hother.stop
    · simpa only [Span.cover, Nat.max_eq_left hle] using h.stop

theorem slice (h : span.Within source) :
    Checked.slice source span.start span.stop = .ok (span.slice source) :=
  if_pos ⟨h.ordered, h.start, h.stop⟩

theorem exists_lineStart (h : span.Within source) :
    ∃ ends width start, span.place source = ⟨ends + 1, width + 1⟩ ∧
      lineStart? ends source = some start ∧ span.start = start + width ∧
      '\n' ∉ (⟨start, span.start⟩ : Span).slice source := by
  obtain ⟨front, back, rfl, hstart⟩ := Checked.splits_iff.mp h.start
  rw [Span.place, Place.ofOffset, hstart, takeBytes_byteLength]
  exact Place.exists_lineStart front back

/-- Something of the text is marked, unless there is none. -/
theorem marked {error : SyntaxError} (h : error.span.Within source) (hne : source ≠ []) :
    (error.marked source).start < (error.marked source).stop ∧
      (error.marked source).stop ≤ byteLength source := by
  have hstop := h.stop.le
  have hordered := h.ordered
  have hpositive : 0 < byteLength source := by
    cases source with
    | nil => exact absurd rfl hne
    | cons c cs => exact Nat.add_pos_left c.utf8Size_pos _
  unfold SyntaxError.marked
  split
  · dsimp only
    omega
  · rename_i hempty
    have hdiffer : error.span.start ≠ error.span.stop := by simpa [Span.isEmpty] using hempty
    omega

end Span.Within

namespace Checked

section Within
variable {source : List Char} {cursor : Cursor}

theorem Fits.lexeme_within (h : Fits source cursor) : cursor.lexeme.1.span.Within source :=
  ⟨Nat.le_add_right _ _, h.skipBlank.splits, h.behindLexeme.splits⟩

theorem Fits.codeBlock_within {error : SyntaxError} (h : Fits source cursor)
    (hcode : cursor.codeBlock = .error error) : error.span.Within source := by
  obtain rfl := Cursor.codeBlock_failed hcode
  have hlast : Fits source (cursor.past cursor.rest []) := h.past (List.append_nil _)
  exact ⟨Nat.le_add_right _ _, h.splits, hlast.splits⟩

end Within

end Checked

/-! What holds of the spans that a reader keeps. -/

def Reader.Stage.Spans (holds : Span → Prop) : Reader.Stage → Prop
  | .colon _ span | .value _ span | .afterWord _ _ span _ => holds span
  | _ => True

structure Reader.Spans (holds : Span → Prop) (reader : Reader) : Prop where
  opened : ∀ inner ∈ reader.opened, holds inner.span
  stage : reader.stage.Spans holds

def Progress.Spans (holds : Span → Prop) : Progress → Prop
  | .onward _ next => next.Spans holds
  | .failed _ error => holds error.span
  | .finished _ => True

namespace Reader

section Handlers
variable {holds : Span → Prop} {opened : List Opened} {lexeme : Lexeme}

theorem spans_before {front : List Event} {progress : Progress} (h : progress.Spans holds) :
    (progress.before front).Spans holds := by
  cases progress <;> exact h

theorem between_spans (hopened : ∀ inner ∈ opened, holds inner.span) :
    Spans holds ⟨opened, between opened⟩ := by
  refine ⟨hopened, ?_⟩
  unfold between
  split <;> trivial

theorem enter_spans {events : List Event} {event : Event} {scope : Scope} {span : Span}
    (hopened : ∀ inner ∈ opened, holds inner.span) (hspan : holds span) :
    (enter opened events event scope span).Spans holds := by
  unfold enter
  split
  · exact between_spans (List.forall_mem_cons.mpr ⟨hspan, hopened⟩)
  · exact hspan

variable (hcover : ∀ span other, holds span → holds other → holds (span.cover other))
  (hopened : ∀ inner ∈ opened, holds inner.span) (hlexeme : holds lexeme.span)

include hcover hopened hlexeme

theorem onMember_spans : (onMember opened lexeme).Spans holds := by
  unfold onMember
  split
  · exact ⟨hopened, trivial⟩
  · exact ⟨hopened, trivial⟩
  · exact ⟨hopened, hlexeme⟩
  · exact ⟨hopened, hlexeme⟩
  · split
    · exact hlexeme
    · exact between_spans fun inner hinner => hopened inner (List.mem_cons_of_mem _ hinner)
  · split
    · trivial
    · exact hcover _ _ (hopened _ List.mem_cons_self) hlexeme
  · exact hlexeme
  · exact hlexeme
  · exact hlexeme

theorem onElement_spans : (onElement opened lexeme).Spans holds := by
  unfold onElement
  split
  · exact ⟨hopened, trivial⟩
  · exact ⟨hopened, trivial⟩
  · exact between_spans fun inner hinner => hopened inner (List.mem_of_mem_tail hinner)
  · exact ⟨hopened, trivial⟩
  · exact ⟨hopened, trivial⟩
  · exact ⟨hopened, trivial⟩
  · exact enter_spans hopened hlexeme
  · apply hcover _ _ _ hlexeme
    cases opened with
    | nil => exact hlexeme
    | cons inner outer => exact hopened inner List.mem_cons_self
  · exact hlexeme
  · exact hlexeme

end Handlers

/-- What holds of the spans of a reader and of a lexeme holds of the spans that a step
leaves, and of the span of an error. -/
theorem step_spans {holds : Span → Prop} (code : Names) {reader : Reader} {lexeme : Lexeme}
    (hcover : ∀ span other, holds span → holds other → holds (span.cover other))
    (hreader : reader.Spans holds) (hlexeme : holds lexeme.span) :
    (reader.step code lexeme).Spans holds := by
  obtain ⟨opened, stage⟩ := reader
  obtain ⟨hopened, hstage⟩ := hreader
  cases stage with
  | member => exact onMember_spans hcover hopened hlexeme
  | colon name span =>
      simp only [step, onColon]
      split
      · exact ⟨hopened, hstage⟩
      · refine ⟨hopened, ?_⟩
        dsimp only
        split
        · trivial
        · exact hstage
      · exact hlexeme
      · exact hlexeme
  | code name => exact hlexeme
  | value name span =>
      simp only [step, onValue]
      split
      · exact ⟨hopened, hstage⟩
      · exact ⟨hopened, trivial⟩
      · exact ⟨hopened, trivial⟩
      · exact ⟨hopened, hlexeme⟩
      · exact enter_spans hopened hlexeme
      · exact enter_spans hopened hlexeme
      · exact hlexeme
      · exact hcover _ _ hstage hlexeme
      · exact hlexeme
  | afterWord name word span comments =>
      simp only [step, onAfterWord]
      split
      · exact ⟨hopened, hstage⟩
      · exact enter_spans hopened hstage
      · exact spans_before (onMember_spans hcover hopened hlexeme)
  | element => exact onElement_spans hcover hopened hlexeme
  | afterElementWord word comments =>
      simp only [step, onAfterElementWord]
      split
      · exact ⟨hopened, trivial⟩
      · exact ⟨hopened, trivial⟩
      · exact spans_before (onElement_spans hcover hopened hlexeme)
  | pairText reference =>
      simp only [step, onPairText]
      split
      · exact ⟨hopened, trivial⟩
      · exact ⟨hopened, trivial⟩
      · exact hlexeme
      · exact hlexeme

theorem start_spans {holds : Span → Prop} : start.Spans holds :=
  ⟨by simp [start], trivial⟩

/-- The span of an error lies in the text. -/
theorem run_within {code : Names} {source : List Char} {reader : Reader} {cursor : Cursor}
    {error : SyntaxError} (hcursor : Checked.Fits source cursor)
    (hreader : reader.Spans (Span.Within source))
    (h : (reader.run code cursor).failure = some error) : error.span.Within source := by
  have hcover : ∀ span other : Span, span.Within source → other.Within source →
      (span.cover other).Within source := fun _ _ => Span.Within.cover
  fun_induction run code reader cursor with
  | case1 reader cursor name hstage text span next hcode ih =>
      have hnext : Checked.Fits source next := Checked.code_next hcode ▸ hcursor.behindCode
      exact ih hnext ⟨hreader.opened, trivial⟩ h
  | case2 reader cursor name hstage failed hcode =>
      obtain rfl := Option.some.inj h
      exact hcursor.codeBlock_within hcode
  | case3 reader cursor events next hstep hstage ih =>
      have hspans := step_spans code hcover hreader hcursor.lexeme_within
      rw [hstep] at hspans
      exact ih hcursor.behindLexeme hspans h
  | case4 reader cursor events failed hstep hstage =>
      have hspans := step_spans code hcover hreader hcursor.lexeme_within
      rw [hstep] at hspans
      obtain rfl := Option.some.inj h
      exact hspans
  | case5 => cases h

end Reader

/-- The span of an error can be cut out of the text and has a place, which leads back to
its start; and something of the text is marked, also where the error is at the end. -/
theorem Reading.failure_located (code : Names) (source : List Char)
    (hsize : byteLength source < 2 ^ 32) {error : SyntaxError}
    (h : (Reading.ofText code source).failure = some error) :
    (error.span.start ≤ error.span.stop ∧ error.span.stop ≤ byteLength source ∧
      error.span.stop < 2 ^ 32 ∧ Checked.Splits source error.span.start ∧
      Checked.Splits source error.span.stop) ∧
    Checked.slice source error.span.start error.span.stop = .ok (error.span.slice source) ∧
    Checked.place error.span source = .ok (error.span.place source) ∧
    (∃ ends width start, error.span.place source = ⟨ends + 1, width + 1⟩ ∧
      lineStart? ends source = some start ∧ error.span.start = start + width ∧
      '\n' ∉ (⟨start, error.span.start⟩ : Span).slice source) ∧
    (error.marked source).start < (error.marked source).stop ∧
      (error.marked source).stop ≤ byteLength source := by
  have hfits : Checked.Fits source (Cursor.ofText source) := ⟨Cursor.ofText_stands source, hsize⟩
  have hwithin : error.span.Within source :=
    Reader.run_within hfits Reader.start_spans h
  have hne : source ≠ [] := by
    rintro rfl
    rw [ofText_eq_runFor] at h
    cases h
  exact ⟨⟨hwithin.ordered, hwithin.stop.le, Nat.lt_of_le_of_lt hwithin.stop.le hsize,
      hwithin.start, hwithin.stop⟩,
    hwithin.slice, Checked.place_of_splits hwithin.start, hwithin.exists_lineStart,
    hwithin.marked hne⟩

/-- At the end of the second line, where nothing follows, behind a character of two
bytes. -/
theorem Reading.failure_located_end :
    (Reading.ofText (Names.ofList []) ['"', 'é', '"', ':', '{', '\n', 'x']).failure =
        some ⟨.unexpected .endOfInput .colon, 8, 8⟩ ∧
      Checked.place ⟨8, 8⟩ ['"', 'é', '"', ':', '{', '\n', 'x'] = .ok ⟨2, 2⟩ := by
  have hfailure : (Reading.ofText (Names.ofList []) ['"', 'é', '"', ':', '{', '\n', 'x']).failure =
      some ⟨.unexpected .endOfInput .colon, 8, 8⟩ := by
    rw [Reading.ofText_eq_runFor]
    decide +kernel
  obtain ⟨-, -, hplace, -⟩ := Reading.failure_located _ _ (by decide) hfailure
  exact ⟨hfailure, hplace⟩

end Lookml
