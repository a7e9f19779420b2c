import Lookml.Text.Span

/-!
Lines of a text. The place of an offset counts the line ends in front of it and the bytes
behind the last of them, so the offset is found again from its place.
-/

namespace Lookml

/-- Where a text goes on behind so many line ends. -/
def lineStart? : Nat → List Char → Option Nat
  | 0, _ => some 0
  | _ + 1, [] => none
  | ends + 1, c :: cs =>
      (lineStart? (if c = '\n' then ends else ends + 1) cs).map (c.utf8Size + ·)

/-- The offset of the last line end. -/
def lastLineEnd? : List Char → Option Nat
  | [] => none
  | c :: cs =>
      match lastLineEnd? cs with
      | some offset => some (c.utf8Size + offset)
      | none => if c = '\n' then some 0 else none

theorem byteLength_reverse (cs : List Char) : byteLength cs.reverse = byteLength cs := by
  induction cs with
  | nil => rfl
  | cons c cs ih => simp [ih, Nat.add_comm]

theorem lastLineEnd?_eq_none {cs : List Char} (h : lastLineEnd? cs = none) : '\n' ∉ cs := by
  induction cs with
  | nil => simp
  | cons c cs ih =>
      rw [lastLineEnd?] at h
      split at h
      · cases h
      · rename_i hlater
        split at h
        · cases h
        · rename_i hc
          rw [List.mem_cons, not_or]
          exact ⟨Ne.symm hc, ih hlater⟩

/-- Behind the last line end the last line begins. -/
theorem lastLineEnd?_eq_some {cs : List Char} {offset : Nat} (h : lastLineEnd? cs = some offset) :
    ∃ before line, cs = before ++ '\n' :: line ∧ '\n' ∉ line ∧ offset = byteLength before := by
  induction cs generalizing offset with
  | nil => cases h
  | cons c cs ih =>
      rw [lastLineEnd?] at h
      split at h
      · rename_i later hlater
        obtain ⟨before, line, rfl, hline, rfl⟩ := ih hlater
        exact ⟨c :: before, line, rfl, hline, (Option.some.inj h).symm⟩
      · rename_i hlater
        split at h
        · obtain rfl := ‹c = '\n'›
          exact ⟨[], cs, rfl, lastLineEnd?_eq_none hlater, (Option.some.inj h).symm⟩
        · cases h

@[simp] theorem lineStart?_zero (cs : List Char) : lineStart? 0 cs = some 0 := by
  rw [lineStart?]

private theorem utf8Size_lineEnd : '\n'.utf8Size = 1 := rfl

theorem byteLength_lines (before line : List Char) :
    byteLength (before ++ '\n' :: line) = byteLength before + 1 + byteLength line := by
  rw [byteLength_append, byteLength_cons, utf8Size_lineEnd, Nat.add_assoc]

theorem lineStart?_behind (before rest : List Char) :
    lineStart? (before.count '\n' + 1) (before ++ '\n' :: rest) = some (byteLength before + 1) := by
  induction before with
  | nil => simp [lineStart?, utf8Size_lineEnd]
  | cons c before ih =>
      by_cases hc : c = '\n'
      · obtain rfl := hc
        simp [lineStart?, ih, Nat.add_assoc]
      · simp [lineStart?, hc, ih, Nat.add_assoc]

private theorem takeWhile_reverse {line : List Char} (h : '\n' ∉ line) (before : List Char) :
    (line.reverse ++ before).takeWhile (· ≠ '\n') =
      line.reverse ++ before.takeWhile (· ≠ '\n') := by
  apply List.takeWhile_append_of_pos
  intro c hc
  rw [List.mem_reverse] at hc
  simpa using fun heq : c = '\n' => h (heq ▸ hc)

namespace Place

theorem after_of_not_mem {line : List Char} (h : '\n' ∉ line) :
    after line = ⟨1, byteLength line + 1⟩ := by
  have hwhole := takeWhile_reverse h []
  rw [List.takeWhile_nil, List.append_nil] at hwhole
  rw [after, hwhole, byteLength_reverse, List.count_eq_zero.mpr h]

theorem after_line {line : List Char} (h : '\n' ∉ line) (before : List Char) :
    after (before ++ '\n' :: line) = ⟨before.count '\n' + 2, byteLength line + 1⟩ := by
  have hlast := takeWhile_reverse h ('\n' :: before.reverse)
  rw [List.takeWhile_cons_of_neg (by simp), List.append_nil] at hlast
  rw [after, List.reverse_append, List.reverse_cons, List.append_assoc, List.singleton_append,
    hlast, byteLength_reverse, List.count_append, List.count_cons_self, List.count_eq_zero.mpr h]

/-- The place of an offset tells how many line ends to go behind, and how many bytes then,
without another line end. -/
theorem exists_lineStart (front back : List Char) :
    ∃ ends width start, after front = ⟨ends + 1, width + 1⟩ ∧
      lineStart? ends (front ++ back) = some start ∧ byteLength front = start + width ∧
      '\n' ∉ (⟨start, byteLength front⟩ : Span).slice (front ++ back) := by
  cases hlast : lastLineEnd? front with
  | none =>
      have hline := lastLineEnd?_eq_none hlast
      refine ⟨0, byteLength front, 0, after_of_not_mem hline, lineStart?_zero _,
        (Nat.zero_add _).symm, ?_⟩
      have hslice := Span.slice_append [] front back
      rw [byteLength_nil, Nat.zero_add, List.nil_append] at hslice
      rwa [hslice]
  | some offset =>
      obtain ⟨before, line, rfl, hline, -⟩ := lastLineEnd?_eq_some hlast
      refine ⟨before.count '\n' + 1, byteLength line, byteLength before + 1,
        after_line hline before, ?_, byteLength_lines before line, ?_⟩
      · rw [List.append_assoc]
        exact lineStart?_behind before (line ++ back)
      · have hslice := Span.slice_append (before ++ ['\n']) line back
        rw [byteLength_append, byteLength_cons, utf8Size_lineEnd, byteLength_nil, Nat.add_zero,
          ← List.append_assoc, List.append_assoc before, List.singleton_append] at hslice
        rwa [byteLength_lines, hslice]

end Place

end Lookml
