/-!
What stands between the quotes of a quoted text. A quote, a backslash and the three
control characters for line feed, carriage return and tab are written as a backslash and a
letter or the character itself; reading refuses every other escape.
-/

namespace Lookml.Quoted

/-- The character written after a backslash for one that cannot stand alone. -/
def escapeOf? : Char → Option Char
  | '"' => some '"'
  | '\\' => some '\\'
  | '\n' => some 'n'
  | '\r' => some 'r'
  | '\t' => some 't'
  | _ => none

def meaningOf? : Char → Option Char
  | '"' => some '"'
  | '\\' => some '\\'
  | 'n' => some '\n'
  | 'r' => some '\r'
  | 't' => some '\t'
  | _ => none

theorem meaningOf?_of_escapeOf? {c e : Char} (h : escapeOf? c = some e) :
    meaningOf? e = some c := by
  unfold escapeOf? at h
  split at h <;> simp_all <;> subst h <;> rfl

def encode : List Char → List Char
  | [] => []
  | c :: cs =>
      match escapeOf? c with
      | some e => '\\' :: e :: encode cs
      | none => c :: encode cs

/-- The text meant, or the first escape that has no meaning. -/
def decode : List Char → Except (List Char) (List Char)
  | [] => .ok []
  | '\\' :: [] => .error ['\\']
  | '\\' :: e :: cs =>
      match meaningOf? e with
      | some c => (decode cs).map (c :: ·)
      | none => .error ['\\', e]
  | c :: cs => (decode cs).map (c :: ·)

/-- Reads up to and including the closing quote. The second part is what follows it, and
is absent when no quote closes the text. -/
def split : List Char → List Char × Option (List Char)
  | [] => ([], none)
  | '"' :: cs => (['"'], some cs)
  | '\\' :: c :: cs => let (text, rest) := split cs; ('\\' :: c :: text, rest)
  | c :: cs => let (text, rest) := split cs; (c :: text, rest)

private theorem decode_cons {c : Char} (h : c ≠ '\\') (cs : List Char) :
    decode (c :: cs) = (decode cs).map (c :: ·) := by
  rw [decode]
  · exact fun heq => absurd heq h
  · exact fun _ _ heq => absurd heq h

theorem decode_encode (cs : List Char) : decode (encode cs) = .ok cs := by
  induction cs with
  | nil => rfl
  | cons c cs ih =>
      simp only [encode]
      cases h : escapeOf? c with
      | none =>
          have hne : c ≠ '\\' := by
            intro heq
            subst heq
            cases h
          simp [decode_cons hne, ih, Except.map]
      | some e => simp [decode, meaningOf?_of_escapeOf? h, ih, Except.map]

private theorem split_cons {c : Char} (h : c ≠ '\\') (h' : c ≠ '"') (cs : List Char) :
    split (c :: cs) = (c :: (split cs).1, (split cs).2) := by
  rw [split]
  · exact fun heq => absurd heq h'
  · exact fun _ _ heq => absurd heq h

/-- A quote behind an encoded text closes it, since none stands alone inside. -/
theorem split_encode (cs rest : List Char) :
    split (encode cs ++ '"' :: rest) = (encode cs ++ ['"'], some rest) := by
  induction cs with
  | nil => rfl
  | cons c cs ih =>
      simp only [encode]
      cases h : escapeOf? c with
      | none =>
          have hne : c ≠ '\\' := by
            intro heq
            subst heq
            cases h
          have hne' : c ≠ '"' := by
            intro heq
            subst heq
            cases h
          simp [split_cons hne hne', ih]
      | some e => simp [split, ih]

theorem split_append (cs : List Char) : (split cs).1 ++ (split cs).2.getD [] = cs := by
  fun_induction split cs <;> simp_all

end Lookml.Quoted
