import Lookml.Event.Reader

/-!
Reading in a bounded number of steps. Each lexeme shortens the rest of a text, so a bound
that its length does not reach makes no difference; and a bounded run is one that a text
can be given to for evaluation.
-/

namespace Lookml

namespace Reader

/-- Reads as far as so many lexemes and code blocks. -/
def runFor (code : Names) : Nat → Reader → Cursor → Reading
  | 0, _, _ => ⟨[], none⟩
  | bound + 1, reader, cursor =>
      match reader.stage with
      | .code name =>
          match cursor.codeBlock with
          | .ok (text, _, next) =>
              (runFor code bound ⟨reader.opened, .member⟩ next).before [.code name text]
          | .error error => ⟨closings reader.opened, some error⟩
      | _ =>
          match reader.step code cursor.lexeme.1 with
          | .onward events next => (runFor code bound next cursor.lexeme.2).before events
          | .failed events error => ⟨events ++ closings reader.opened, some error⟩
          | .finished events => ⟨events, none⟩

theorem run_eq_runFor {code : Names} {bound : Nat} {reader : Reader} {cursor : Cursor}
    (h : cursor.rest.length < bound) :
    reader.run code cursor = runFor code bound reader cursor := by
  induction bound generalizing reader cursor with
  | zero => exact absurd h (Nat.not_lt_zero _)
  | succ bound ih =>
      have hshorter {next : Cursor} (hnext : next.rest.length < cursor.rest.length) :
          next.rest.length < bound := by omega
      rw [runFor]
      split
      · rename_i name hstage
        split
        · rename_i text span next hblock
          rw [run_codeBlock hstage hblock, ih (hshorter (Cursor.codeBlock_rest_length_lt hblock))]
        · rename_i error hblock
          exact run_unterminatedCode hstage hblock
      · rename_i hstage
        split
        · rename_i events next hstep
          have hlexeme := Cursor.lexeme_rest_length_lt fun hend =>
            step_endOfInput code reader hend events next hstep
          rw [run_onward hstage hstep, ih (hshorter hlexeme)]
        · rename_i events error hstep
          exact run_failed hstage hstep
        · rename_i events hstep
          exact run_finished hstage hstep

end Reader

theorem Reading.ofText_eq_runFor (code : Names) (source : List Char) :
    Reading.ofText code source =
      Reader.start.runFor code (source.length + 1) (Cursor.ofText source) :=
  Reader.run_eq_runFor (Nat.lt_succ_self _)

end Lookml
