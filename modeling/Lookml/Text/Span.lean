/-!
Places in a text. Offsets count the bytes of the UTF-8 form; lines and columns start at
one, and a column counts bytes too.
-/

namespace Lookml

/-- The number of bytes that the characters take in UTF-8. -/
def byteLength : List Char → Nat
  | [] => 0
  | c :: cs => c.utf8Size + byteLength cs

@[simp] theorem byteLength_nil : byteLength [] = 0 := rfl

@[simp] theorem byteLength_cons (c : Char) (cs : List Char) :
    byteLength (c :: cs) = c.utf8Size + byteLength cs := rfl

@[simp] theorem byteLength_append (left right : List Char) :
    byteLength (left ++ right) = byteLength left + byteLength right := by
  induction left with
  | nil => simp
  | cons c cs ih => simp [ih, Nat.add_assoc]

/-- The characters that end within the first `bytes` bytes. -/
def takeBytes : Nat → List Char → List Char
  | _, [] => []
  | bytes, c :: cs =>
      if c.utf8Size ≤ bytes then c :: takeBytes (bytes - c.utf8Size) cs else []

def dropBytes : Nat → List Char → List Char
  | _, [] => []
  | bytes, c :: cs =>
      if c.utf8Size ≤ bytes then dropBytes (bytes - c.utf8Size) cs else c :: cs

theorem takeBytes_append_dropBytes (bytes : Nat) (cs : List Char) :
    takeBytes bytes cs ++ dropBytes bytes cs = cs := by
  induction cs generalizing bytes with
  | nil => rfl
  | cons c cs ih =>
      simp only [takeBytes, dropBytes]
      split
      · simp [ih]
      · rfl

theorem takeBytes_byteLength (front back : List Char) :
    takeBytes (byteLength front) (front ++ back) = front := by
  induction front with
  | nil =>
      cases back with
      | nil => rfl
      | cons c cs =>
          have := Char.utf8Size_pos c
          simp only [List.nil_append, byteLength_nil, takeBytes]
          rw [if_neg (by omega)]
  | cons c cs ih => simp [takeBytes, ih]

theorem dropBytes_byteLength (front back : List Char) :
    dropBytes (byteLength front) (front ++ back) = back := by
  have happend := takeBytes_append_dropBytes (byteLength front) (front ++ back)
  rw [takeBytes_byteLength] at happend
  exact List.append_cancel_left happend

structure Span where
  start : Nat
  stop : Nat
deriving DecidableEq, Inhabited

/-- A line and a column, both counted from one. -/
structure Place where
  line : Nat
  column : Nat
deriving DecidableEq

namespace Span

def empty (offset : Nat) : Span := ⟨offset, offset⟩

def length (span : Span) : Nat := span.stop - span.start

def isEmpty (span : Span) : Bool := span.start == span.stop

def cover (span other : Span) : Span :=
  ⟨min span.start other.start, max span.stop other.stop⟩

def toText (span : Span) : String := s!"{span.start}..{span.stop}"

def slice (span : Span) (source : List Char) : List Char :=
  takeBytes (span.stop - span.start) (dropBytes span.start source)

theorem slice_append (front text back : List Char) :
    (⟨byteLength front, byteLength front + byteLength text⟩ : Span).slice
      (front ++ (text ++ back)) = text := by
  simp only [slice, Nat.add_sub_cancel_left]
  rw [dropBytes_byteLength, takeBytes_byteLength]

end Span

/-- Where the text stands after the characters in front. -/
def Place.after (front : List Char) : Place where
  line := front.count '\n' + 1
  column := byteLength (front.reverse.takeWhile (· ≠ '\n')) + 1

/-- The place of an offset; one past the end counts as the end. -/
def Place.ofOffset (source : List Char) (offset : Nat) : Place :=
  Place.after (takeBytes offset source)

def Span.place (span : Span) (source : List Char) : Place :=
  Place.ofOffset source span.start

end Lookml
