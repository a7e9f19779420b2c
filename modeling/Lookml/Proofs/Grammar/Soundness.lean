import Lookml.Proofs.Grammar.Derivation
import Lookml.Proofs.Reader.Reads
import Lookml.Proofs.Reader.Sound

/-!
What the reader reads, the grammar derives. The rest of a text that a reader has still to
read is followed backwards from its end: it finishes the item that the reader is in, and
then goes on as the open scopes demand.
-/

namespace Lookml.Grammar

/-- What may follow between two items inside some open scopes: further items of the
innermost one, and behind its end what may follow in the scopes around it. -/
inductive Continues (code : Names) : OpenScopes → List Terminal → List Event → Prop
  | document {ts : List Terminal} {es : List Event}
      (members : Derives code .members maxDepth ts es) : Continues code [] ts es
  | object {scopes : OpenScopes} {room : Nat} {ts ts' : List Terminal} {es es' : List Event}
      (members : Derives code .members room ts es) (hroom : scopes.length + 1 + room = maxDepth)
      (later : Continues code scopes ts' es') :
      Continues code (.object :: scopes) (ts ++ .lexeme .closeBrace :: ts') (es ++ .close :: es')
  | list {scopes : OpenScopes} {room : Nat} {ts ts' : List Terminal} {es es' : List Event}
      (elements : Derives code .elements room ts es) (hroom : scopes.length + 1 + room = maxDepth)
      (later : Continues code scopes ts' es') :
      Continues code (.list :: scopes) (ts ++ .lexeme .closeBracket :: ts') (es ++ .close :: es')

namespace Continues

variable {code : Names} {scopes : OpenScopes} {ts ts' : List Terminal} {es es' : List Event}

theorem memberComma (hscope : scopes.current = .object) (h : Continues code scopes ts es) :
    Continues code scopes (.lexeme .comma :: ts) es := by
  cases h with
  | document members => exact .document (.memberComma members)
  | object members hroom later => exact .object (.memberComma members) hroom later
  | list elements hroom later => cases hscope

theorem elementComma (hscope : scopes.current = .list) (h : Continues code scopes ts es) :
    Continues code scopes (.lexeme .comma :: ts) es := by
  cases h with
  | document members => cases hscope
  | object members hroom later => cases hscope
  | list elements hroom later => exact .list (.elementComma elements) hroom later

theorem member (hscope : scopes.current = .object)
    (first : ∀ room, scopes.length + room = maxDepth → Derives code .member room ts es)
    (h : Continues code scopes ts' es') : Continues code scopes (ts ++ ts') (es ++ es') := by
  cases h with
  | document members =>
      exact .document (.moreMembers (first maxDepth (Nat.zero_add _)) members)
  | object members hroom later =>
      rw [← List.append_assoc, ← List.append_assoc]
      exact .object (.moreMembers (first _ hroom) members) hroom later
  | list elements hroom later => cases hscope

theorem element (hscope : scopes.current = .list)
    (first : ∀ room, scopes.length + room = maxDepth → Derives code .element room ts es)
    (h : Continues code scopes ts' es') : Continues code scopes (ts ++ ts') (es ++ es') := by
  cases h with
  | document members => cases hscope
  | object members hroom later => cases hscope
  | list elements hroom later =>
      rw [← List.append_assoc, ← List.append_assoc]
      exact .list (.moreElements (first _ hroom) elements) hroom later

theorem closeBrace (hdepth : scopes.length < maxDepth) (h : Continues code scopes ts es) :
    Continues code (.object :: scopes) (.lexeme .closeBrace :: ts) (.close :: es) := by
  obtain ⟨room, hroom⟩ := Nat.exists_eq_add_of_le hdepth
  exact .object .noMembers hroom.symm h

theorem closeBracket (hdepth : scopes.length < maxDepth) (h : Continues code scopes ts es) :
    Continues code (.list :: scopes) (.lexeme .closeBracket :: ts) (.close :: es) := by
  obtain ⟨room, hroom⟩ := Nat.exists_eq_add_of_le hdepth
  exact .list .noElements hroom.symm h

/-- What follows behind a brace that opens an object finishes that object first. -/
theorem behindBrace (front : List Terminal) {event : Event} (hscope : scopes.current = .object)
    (first : ∀ room ts es, Derives code .members room ts es →
      Derives code .member (room + 1) (front ++ (ts ++ [.lexeme .closeBrace]))
        (event :: (es ++ [.close])))
    (h : Continues code (.object :: scopes) ts es) :
    Continues code scopes (front ++ ts) (event :: es) := by
  cases h with
  | @object _ room ts ts' es es' members hroom later =>
      have hmember := later.member hscope fun room' hroom' => by
        obtain rfl : room' = room + 1 := by omega
        exact first room ts es members
      simpa only [List.append_assoc, List.cons_append, List.nil_append] using hmember

theorem behindBracket (front : List Terminal) {event : Event} (hscope : scopes.current = .object)
    (first : ∀ room ts es, Derives code .elements room ts es →
      Derives code .member (room + 1) (front ++ (ts ++ [.lexeme .closeBracket]))
        (event :: (es ++ [.close])))
    (h : Continues code (.list :: scopes) ts es) :
    Continues code scopes (front ++ ts) (event :: es) := by
  cases h with
  | @list _ room ts ts' es es' elements hroom later =>
      have hmember := later.member hscope fun room' hroom' => by
        obtain rfl : room' = room + 1 := by omega
        exact first room ts es elements
      simpa only [List.append_assoc, List.cons_append, List.nil_append] using hmember

theorem nested (hscope : scopes.current = .list)
    (h : Continues code (.list :: scopes) ts es) :
    Continues code scopes (.lexeme .openBracket :: ts) (.list none :: es) := by
  cases h with
  | @list _ room ts ts' es es' elements hroom later =>
      have helement := later.element hscope fun room' hroom' => by
        obtain rfl : room' = room + 1 := by omega
        exact Derives.nested elements
      simpa only [List.append_assoc, List.cons_append, List.nil_append] using helement

end Continues

/-- The terminals of the item that a reader is in the midst of, as far as they have been
read. -/
def Seen (code : Names) : Reader.Stage → List Terminal → Prop
  | .member, front | .element, front => front = []
  | .colon name _, front => ∃ kind, nameOf? kind = some name ∧ front = [.lexeme kind]
  | .code name, front =>
      code.contains name = true ∧
        ∃ kind, nameOf? kind = some name ∧ front = [.lexeme kind, .lexeme .colon]
  | .value name _, front =>
      code.contains name = false ∧
        ∃ kind, nameOf? kind = some name ∧ front = [.lexeme kind, .lexeme .colon]
  | .afterWord name word _ _, front =>
      code.contains name = false ∧ ∃ kind, nameOf? kind = some name ∧
        front = [.lexeme kind, .lexeme .colon, .lexeme (.word word)]
  | .afterElementWord word _, front => front = [.lexeme (.word word)]
  | .pairText reference, front => front = [.lexeme (.word reference), .lexeme .colon]

def awaitsCode : Reader.Stage → Bool
  | .code _ => true
  | _ => false

/-- The rest of a text consists of terminals with which the item of a reader, and all open
scopes, can be derived, and the derivation tells the given events. -/
def Derived (code : Names) (reader : Reader) (cs : List Char) (events : List Event) : Prop :=
  ∃ ts, Lexed (awaitsCode reader.stage) cs ts ∧
    ∀ front, Seen code reader.stage front →
      Continues code (scopesOf reader.opened) (front ++ ts) (withoutComments events)

theorem lexed_of_false {behindColon : Bool} {cs : List Char} {ts : List Terminal}
    (h : Lexed false cs ts) : Lexed behindColon cs ts := by
  cases h with
  | endOfInput hnext => exact .endOfInput hnext
  | comment hnext later => exact .comment hnext later
  | lexeme hnext hkind later => exact .lexeme hnext hkind later

section Steps
variable {code : Names} {opened : List Opened} {cs rest : List Char} {kind : Lexeme.Kind}
  {span : Span} {told later : List Event} {next : Reader}

/-- A comment tells nothing that is kept, and the reader stays in the item that it is
in. -/
private theorem Derived.comment {reader reached : Reader} {events : List Event} {text : String}
    (hnext : Lexeme.next cs = (kind, rest)) (hkind : kind = .comment text)
    (hstep : Progress.onward events reached = .onward told next)
    (hcode : awaitsCode reached.stage = false) (hopened : reached.opened = reader.opened)
    (hseen : ∀ front, Seen code reader.stage front → Seen code reached.stage front)
    (hevents : withoutComments events = []) (hlater : Derived code next rest later) :
    Derived code reader cs (told ++ later) := by
  subst hkind
  obtain ⟨rfl, rfl⟩ := Progress.onward.inj hstep
  obtain ⟨ts, hlexed, hcontinues⟩ := hlater
  refine ⟨ts, .comment hnext (hcode ▸ hlexed), fun front hfront => ?_⟩
  rw [withoutComments_append, hevents, ← hopened]
  exact hcontinues front (hseen front hfront)

/-- Any other lexeme becomes a terminal in front of those that the reader goes on with. -/
private theorem Derived.lexeme {reader reached : Reader} {taken : Lexeme.Kind}
    {events : List Event} (hnext : Lexeme.next cs = (kind, rest)) (hkind : kind = taken)
    (hstep : Progress.onward events reached = .onward told next)
    (hterminal : taken.isTerminal = true)
    (hcode : awaitsCode reached.stage = true → taken = .colon)
    (hlater : Derived code next rest later)
    (hcontinues : ∀ ts,
      (∀ front, Seen code reached.stage front →
        Continues code (scopesOf reached.opened) (front ++ ts) (withoutComments later)) →
      ∀ front, Seen code reader.stage front →
        Continues code (scopesOf reader.opened) (front ++ .lexeme taken :: ts)
          (withoutComments (events ++ later))) :
    Derived code reader cs (told ++ later) := by
  subst hkind
  obtain ⟨rfl, rfl⟩ := Progress.onward.inj hstep
  obtain ⟨ts, hlexed, hlater⟩ := hlater
  refine ⟨.lexeme kind :: ts, .lexeme hnext hterminal ?_, hcontinues ts hlater⟩
  cases hawaits : awaitsCode reached.stage with
  | false =>
      rw [hawaits] at hlexed
      exact lexed_of_false hlexed
  | true =>
      rw [hawaits] at hlexed
      exact (beq_iff_eq.mpr (hcode hawaits)).symm ▸ hlexed

private theorem between_awaits (opened : List Opened) :
    awaitsCode (Reader.between opened) = false := by
  unfold Reader.between
  split <;> rfl

private theorem between_seen (opened : List Opened) :
    Seen code (Reader.between opened) [] := by
  unfold Reader.between
  split <;> rfl

private theorem onMember_derived (hscope : (scopesOf opened).current = .object)
    (hdepth : opened.length ≤ maxDepth) (hnext : Lexeme.next cs = (kind, rest))
    (hstep : Reader.onMember opened ⟨kind, span⟩ = .onward told next)
    (hlater : Derived code next rest later) :
    Derived code ⟨opened, .member⟩ cs (told ++ later) := by
  unfold Reader.onMember at hstep
  split at hstep
  · exact .comment hnext ‹_› hstep rfl rfl (fun _ h => h) rfl hlater
  · refine .lexeme hnext ‹_› hstep rfl (by simp [awaitsCode]) hlater ?_
    rintro ts hcontinues _ rfl
    exact (hcontinues [] rfl).memberComma hscope
  · refine .lexeme hnext ‹_› hstep rfl (by simp [awaitsCode]) hlater ?_
    rintro ts hcontinues _ rfl
    exact hcontinues _ ⟨_, rfl, rfl⟩
  · refine .lexeme hnext ‹_› hstep rfl (by simp [awaitsCode]) hlater ?_
    rintro ts hcontinues _ rfl
    exact hcontinues _ ⟨_, rfl, rfl⟩
  · split at hstep
    · cases hstep
    · rename_i inner outer
      refine .lexeme hnext ‹_› hstep rfl (by simp [between_awaits]) hlater ?_
      rintro ts hcontinues _ rfl
      rw [scopesOf_cons, show inner.scope = .object from hscope]
      refine (hcontinues [] (between_seen outer)).closeBrace ?_
      rw [length_scopesOf]
      exact hdepth
  · split at hstep <;> cases hstep
  · cases hstep
  · cases hstep
  · cases hstep

private theorem onColon_derived {name : String} {place : Span}
    (hnext : Lexeme.next cs = (kind, rest))
    (hstep : Reader.onColon code opened name place ⟨kind, span⟩ = .onward told next)
    (hlater : Derived code next rest later) :
    Derived code ⟨opened, .colon name place⟩ cs (told ++ later) := by
  unfold Reader.onColon at hstep
  split at hstep
  · exact .comment hnext ‹_› hstep rfl rfl (fun _ h => h) rfl hlater
  · refine .lexeme hnext ‹_› hstep rfl (fun _ => rfl) hlater ?_
    rintro ts hcontinues _ ⟨kind, hkind, rfl⟩
    refine hcontinues [.lexeme kind, .lexeme .colon] ?_
    cases hcode : code.contains name with
    | true => exact ⟨hcode, kind, hkind, rfl⟩
    | false => exact ⟨hcode, kind, hkind, rfl⟩
  · cases hstep
  · cases hstep

private theorem of_enter {events : List Event} {event : Event} {scope : Scope}
    (h : Reader.enter opened events event scope span = .onward told next) :
    told = events ++ [event] ∧
      next = ⟨⟨scope, span⟩ :: opened, Reader.between (⟨scope, span⟩ :: opened)⟩ := by
  unfold Reader.enter at h
  split at h
  · obtain ⟨rfl, rfl⟩ := Progress.onward.inj h
    exact ⟨rfl, rfl⟩
  · cases h

private theorem onValue_derived {name : String} {place : Span}
    (hscope : (scopesOf opened).current = .object) (hnext : Lexeme.next cs = (kind, rest))
    (hstep : Reader.onValue opened name place ⟨kind, span⟩ = .onward told next)
    (hlater : Derived code next rest later) :
    Derived code ⟨opened, .value name place⟩ cs (told ++ later) := by
  unfold Reader.onValue at hstep
  split at hstep
  · exact .comment hnext ‹_› hstep rfl rfl (fun _ h => h) rfl hlater
  · refine .lexeme hnext ‹_› hstep rfl (by simp [awaitsCode]) hlater ?_
    rintro ts hcontinues _ ⟨hname, kind, hkind, rfl⟩
    exact (hcontinues [] rfl).member hscope fun _ _ => .property hkind hname .number
  · refine .lexeme hnext ‹_› hstep rfl (by simp [awaitsCode]) hlater ?_
    rintro ts hcontinues _ ⟨hname, kind, hkind, rfl⟩
    exact (hcontinues [] rfl).member hscope fun _ _ => .property hkind hname .string
  · refine .lexeme hnext ‹_› hstep rfl (by simp [awaitsCode]) hlater ?_
    rintro ts hcontinues _ ⟨hname, kind, hkind, rfl⟩
    exact hcontinues _ ⟨hname, kind, hkind, rfl⟩
  · obtain ⟨rfl, rfl⟩ := of_enter hstep
    refine .lexeme hnext ‹_› rfl rfl (by simp [between_awaits]) hlater ?_
    rintro ts hcontinues _ ⟨hname, kind, hkind, rfl⟩
    exact (hcontinues [] rfl).behindBrace [.lexeme kind, .lexeme .colon, .lexeme .openBrace] hscope
      fun _ _ _ members => .property hkind hname (.object members)
  · obtain ⟨rfl, rfl⟩ := of_enter hstep
    refine .lexeme hnext ‹_› rfl rfl (by simp [between_awaits]) hlater ?_
    rintro ts hcontinues _ ⟨hname, kind, hkind, rfl⟩
    exact (hcontinues [] rfl).behindBracket [.lexeme kind, .lexeme .colon, .lexeme .openBracket]
      hscope fun _ _ _ elements => .property hkind hname (.list elements)
  · cases hstep
  · cases hstep
  · cases hstep

private theorem onElement_derived (hscope : (scopesOf opened).current = .list)
    (hdepth : opened.length ≤ maxDepth) (hnext : Lexeme.next cs = (kind, rest))
    (hstep : Reader.onElement opened ⟨kind, span⟩ = .onward told next)
    (hlater : Derived code next rest later) :
    Derived code ⟨opened, .element⟩ cs (told ++ later) := by
  unfold Reader.onElement at hstep
  split at hstep
  · exact .comment hnext ‹_› hstep rfl rfl (fun _ h => h) rfl hlater
  · refine .lexeme hnext ‹_› hstep rfl (by simp [awaitsCode]) hlater ?_
    rintro ts hcontinues _ rfl
    exact (hcontinues [] rfl).elementComma hscope
  · refine .lexeme hnext ‹_› hstep rfl (by simp [between_awaits]) hlater ?_
    rintro ts hcontinues _ rfl
    cases opened with
    | nil => cases hscope
    | cons inner outer =>
        rw [scopesOf_cons, show inner.scope = .list from hscope]
        refine (hcontinues [] (between_seen outer)).closeBracket ?_
        rw [length_scopesOf]
        exact hdepth
  · refine .lexeme hnext ‹_› hstep rfl (by simp [awaitsCode]) hlater ?_
    rintro ts hcontinues _ rfl
    exact (hcontinues [] rfl).element hscope fun _ _ => .elementNumber
  · refine .lexeme hnext ‹_› hstep rfl (by simp [awaitsCode]) hlater ?_
    rintro ts hcontinues _ rfl
    exact (hcontinues [] rfl).element hscope fun _ _ => .elementString
  · refine .lexeme hnext ‹_› hstep rfl (by simp [awaitsCode]) hlater ?_
    rintro ts hcontinues _ rfl
    exact hcontinues _ rfl
  · obtain ⟨rfl, rfl⟩ := of_enter hstep
    refine .lexeme hnext ‹_› rfl rfl (by simp [between_awaits]) hlater ?_
    rintro ts hcontinues _ rfl
    exact (hcontinues [] rfl).nested hscope
  · cases hstep
  · cases hstep
  · cases hstep

private theorem onPairText_derived {reference : String}
    (hscope : (scopesOf opened).current = .list) (hnext : Lexeme.next cs = (kind, rest))
    (hstep : Reader.onPairText opened reference ⟨kind, span⟩ = .onward told next)
    (hlater : Derived code next rest later) :
    Derived code ⟨opened, .pairText reference⟩ cs (told ++ later) := by
  unfold Reader.onPairText at hstep
  split at hstep
  · exact .comment hnext ‹_› hstep rfl rfl (fun _ h => h) rfl hlater
  · refine .lexeme hnext ‹_› hstep rfl (by simp [awaitsCode]) hlater ?_
    rintro ts hcontinues _ rfl
    exact (hcontinues [] rfl).element hscope fun _ _ => .pair
  · cases hstep
  · cases hstep

private theorem Derived.afterWord {name word : String} {place : Span} {comments : List String}
    {events : List Event} (hscope : (scopesOf opened).current = .object)
    (h : Derived code ⟨opened, .member⟩ cs events) :
    Derived code ⟨opened, .afterWord name word place comments⟩ cs
      (Reader.wordEvent (some name) word :: Event.comments comments ++ events) := by
  obtain ⟨ts, hlexed, hcontinues⟩ := h
  refine ⟨ts, hlexed, ?_⟩
  rintro _ ⟨hname, kind, hkind, rfl⟩
  rw [withoutComments_append, withoutComments_cons (isComment_wordEvent _ _),
    withoutComments_comments]
  exact (hcontinues [] rfl).member hscope fun _ _ => .property hkind hname .word

private theorem Derived.afterElementWord {word : String} {comments : List String}
    {events : List Event} (hscope : (scopesOf opened).current = .list)
    (h : Derived code ⟨opened, .element⟩ cs events) :
    Derived code ⟨opened, .afterElementWord word comments⟩ cs
      (Reader.wordEvent none word :: Event.comments comments ++ events) := by
  obtain ⟨ts, hlexed, hcontinues⟩ := h
  refine ⟨ts, hlexed, ?_⟩
  rintro _ rfl
  rw [withoutComments_append, withoutComments_cons (isComment_wordEvent _ _),
    withoutComments_comments]
  exact (hcontinues [] rfl).element hscope fun _ _ => .elementWord

private theorem of_before {front : List Event} {progress : Progress}
    (h : progress.before front = .onward told next) :
    ∃ more, progress = .onward more next ∧ told = front ++ more := by
  cases progress with
  | onward more reader =>
      obtain ⟨rfl, rfl⟩ := Progress.onward.inj h
      exact ⟨more, rfl, rfl⟩
  | failed more error => cases h
  | finished more => cases h

private theorem onAfterWord_derived {name word : String} {place : Span} {comments : List String}
    (hscope : (scopesOf opened).current = .object) (hdepth : opened.length ≤ maxDepth)
    (hnext : Lexeme.next cs = (kind, rest))
    (hstep : Reader.onAfterWord opened name word place comments ⟨kind, span⟩ = .onward told next)
    (hlater : Derived code next rest later) :
    Derived code ⟨opened, .afterWord name word place comments⟩ cs (told ++ later) := by
  unfold Reader.onAfterWord at hstep
  split at hstep
  · exact .comment hnext ‹_› hstep rfl rfl (fun _ h => h) rfl hlater
  · obtain ⟨rfl, rfl⟩ := of_enter hstep
    refine .lexeme hnext ‹_› rfl rfl (by simp [between_awaits]) hlater ?_
    rintro ts hcontinues _ ⟨hname, kind, hkind, rfl⟩
    rw [List.append_assoc, withoutComments_append, withoutComments_comments]
    exact (hcontinues [] rfl).behindBrace
      [.lexeme kind, .lexeme .colon, .lexeme (.word word), .lexeme .openBrace] hscope
      fun _ _ _ members => .property hkind hname (.named members)
  · obtain ⟨more, hmember, rfl⟩ := of_before hstep
    rw [List.append_assoc]
    exact (onMember_derived hscope hdepth hnext hmember hlater).afterWord hscope

private theorem onAfterElementWord_derived {word : String} {comments : List String}
    (hscope : (scopesOf opened).current = .list) (hdepth : opened.length ≤ maxDepth)
    (hnext : Lexeme.next cs = (kind, rest))
    (hstep : Reader.onAfterElementWord opened word comments ⟨kind, span⟩ = .onward told next)
    (hlater : Derived code next rest later) :
    Derived code ⟨opened, .afterElementWord word comments⟩ cs (told ++ later) := by
  unfold Reader.onAfterElementWord at hstep
  split at hstep
  · exact .comment hnext ‹_› hstep rfl rfl (fun _ h => h) rfl hlater
  · refine .lexeme hnext ‹_› hstep rfl (fun _ => rfl) hlater ?_
    rintro ts hcontinues _ rfl
    rw [withoutComments_append, withoutComments_comments]
    exact hcontinues _ rfl
  · obtain ⟨more, helement, rfl⟩ := of_before hstep
    rw [List.append_assoc]
    exact (onElement_derived hscope hdepth hnext helement hlater).afterElementWord hscope

/-- One step back: from the rest behind a lexeme to the rest before it. -/
theorem step_derived {reader : Reader} (hreader : reader.Sound code)
    (hstage : ∀ name, reader.stage ≠ .code name) (hnext : Lexeme.next cs = (kind, rest))
    (hstep : reader.step code ⟨kind, span⟩ = .onward told next)
    (hlater : Derived code next rest later) : Derived code reader cs (told ++ later) := by
  obtain ⟨opened, stage⟩ := reader
  obtain ⟨hscope, hdepth, -⟩ := hreader
  cases stage with
  | member => exact onMember_derived hscope hdepth hnext hstep hlater
  | colon name place => exact onColon_derived hnext hstep hlater
  | code name => exact absurd rfl (hstage name)
  | value name place => exact onValue_derived hscope hnext hstep hlater
  | afterWord name word place comments =>
      exact onAfterWord_derived hscope hdepth hnext hstep hlater
  | element => exact onElement_derived hscope hdepth hnext hstep hlater
  | afterElementWord word comments =>
      exact onAfterElementWord_derived hscope hdepth hnext hstep hlater
  | pairText reference => exact onPairText_derived hscope hnext hstep hlater

private theorem of_onMember_finished (h : Reader.onMember opened ⟨kind, span⟩ = .finished told) :
    kind = .endOfInput ∧ opened = [] ∧ told = [] := by
  unfold Reader.onMember Reader.leave Reader.unexpected at h
  split at h <;> try cases h
  · split at h <;> cases h
  · split at h
    · obtain rfl := Progress.finished.inj h
      exact ⟨‹_›, rfl, rfl⟩
    · cases h

private theorem onElement_ne_finished : Reader.onElement opened ⟨kind, span⟩ ≠ .finished told := by
  unfold Reader.onElement Reader.leave Reader.enter Reader.unexpected
  repeat' split
  all_goals simp

private theorem of_before_finished {front : List Event} {progress : Progress}
    (h : progress.before front = .finished told) :
    ∃ more, progress = .finished more ∧ told = front ++ more := by
  cases progress with
  | onward more reader => cases h
  | failed more error => cases h
  | finished more =>
      obtain rfl := Progress.finished.inj h
      exact ⟨more, rfl, rfl⟩

private theorem onMember_finished_derived (hnext : Lexeme.next cs = (kind, rest))
    (h : Reader.onMember opened ⟨kind, span⟩ = .finished told) :
    Derived code ⟨opened, .member⟩ cs told := by
  obtain ⟨rfl, rfl, rfl⟩ := of_onMember_finished h
  refine ⟨[], .endOfInput hnext, ?_⟩
  rintro _ rfl
  exact .document .noMembers

theorem step_finished_derived {reader : Reader} (hreader : reader.Sound code)
    (hnext : Lexeme.next cs = (kind, rest))
    (hstep : reader.step code ⟨kind, span⟩ = .finished told) : Derived code reader cs told := by
  obtain ⟨opened, stage⟩ := reader
  cases stage with
  | member => exact onMember_finished_derived hnext hstep
  | afterWord name word place comments =>
      simp only [Reader.step, Reader.onAfterWord, Reader.enter] at hstep
      split at hstep
      · cases hstep
      · split at hstep <;> cases hstep
      · obtain ⟨more, hmember, rfl⟩ := of_before_finished hstep
        exact (onMember_finished_derived hnext hmember).afterWord hreader.scope
  | element => exact absurd hstep onElement_ne_finished
  | afterElementWord word comments =>
      simp only [Reader.step, Reader.onAfterElementWord] at hstep
      split at hstep
      · cases hstep
      · cases hstep
      · obtain ⟨more, helement, rfl⟩ := of_before_finished hstep
        exact absurd helement onElement_ne_finished
  | code name => cases hstep
  | colon name place =>
      simp only [Reader.step, Reader.onColon, Reader.unexpected] at hstep
      split at hstep <;> cases hstep
  | value name place =>
      simp only [Reader.step, Reader.onValue, Reader.enter, Reader.unexpected] at hstep
      repeat' split at hstep
      all_goals cases hstep
  | pairText reference =>
      simp only [Reader.step, Reader.onPairText, Reader.unexpected] at hstep
      split at hstep <;> cases hstep

private theorem Derived.codeBlock {name : String} {text : List Char}
    (hscope : (scopesOf opened).current = .object)
    (hsplit : Token.splitCode cs = some (text, rest))
    (hlater : Derived code ⟨opened, .member⟩ rest later) :
    Derived code ⟨opened, .code name⟩ cs
      (.code name (String.ofList (trimBlank text)) :: later) := by
  obtain ⟨ts, hlexed, hcontinues⟩ := hlater
  refine ⟨.code text :: ts, .code hsplit hlexed, ?_⟩
  rintro _ ⟨hname, kind, hkind, rfl⟩
  exact (hcontinues [] rfl).member hscope fun _ _ => .codeBlock hkind hname

theorem run_derived {reader : Reader} {cursor : Cursor} {events : List Event}
    (hreader : reader.Sound code) (h : reader.run code cursor = ⟨events, none⟩) :
    Derived code reader cursor.rest events := by
  -- On what is left of the text: the derivation grows from its end, one lexeme or block
  -- of code at a time.
  induction hlength : cursor.rest.length using Nat.strongRecOn
    generalizing reader cursor events with
  | ind length ih =>
      by_cases hstage : ∃ name, reader.stage = .code name
      · obtain ⟨opened, stage⟩ := reader
        obtain ⟨name, rfl⟩ := hstage
        obtain ⟨text, next, later, hsplit, hrun, rfl⟩ := Reader.run_codeBlock_success rfl h
        have hlt : next.rest.length < length := by
          have happend := congrArg List.length (Token.splitCode_append hsplit)
          simp only [List.length_append, List.length_cons] at happend
          omega
        have hmember : Reader.Sound code ⟨opened, .member⟩ :=
          ⟨hreader.scope, hreader.depth, trivial⟩
        exact (ih _ hlt hmember hrun rfl).codeBlock hreader.scope hsplit
      · have hstage : ∀ name, reader.stage ≠ .code name := fun name hname => hstage ⟨name, hname⟩
        have hnext : Lexeme.next cursor.rest = (cursor.lexeme.1.kind, cursor.lexeme.2.rest) := by
          rw [Cursor.lexeme_kind, Cursor.lexeme_rest]
        rcases Reader.run_success hstage h with ⟨told, next, later, hstep, hrun, rfl⟩ | hstep
        · have hlt : cursor.lexeme.2.rest.length < length := by
            rw [← hlength]
            exact Cursor.lexeme_rest_length_lt fun hend =>
              Reader.step_endOfInput code reader hend _ _ hstep
          have hsound := Reader.step_sound cursor hreader
          rw [hstep] at hsound
          exact step_derived hreader hstage hnext hstep (ih _ hlt hsound.2 hrun rfl)
        · exact step_finished_derived hreader hnext hstep

end Steps

theorem derives_of_read {code : Names} {source : List Char} {events : List Event}
    (h : Reading.ofText code source = ⟨events, none⟩) :
    ∃ ts, Lexed false source ts ∧ IsDocument code ts (withoutComments events) := by
  obtain ⟨ts, hlexed, hcontinues⟩ := run_derived (Reader.start_sound code) h
  refine ⟨ts, hlexed, ?_⟩
  cases hcontinues [] rfl with
  | document members => exact members

end Lookml.Grammar
