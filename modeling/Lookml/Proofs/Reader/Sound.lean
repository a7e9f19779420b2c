import Lookml.Proofs.Event.Spelled
import Lookml.Proofs.Reader.Path

/-!
What a reader tells, whether or not the text is well formed: each event fits the scope
that it stands in, the scopes are never too many, and in the end all are closed. The words
and the code told are such as a text can spell.
-/

namespace Lookml

/-- What holds of an event that a reader tells inside some open scopes. -/
structure Told (code : Names) (scopes : OpenScopes) (event : Event) : Prop where
  takes : scopes.Takes event
  depth : (scopes.after event).length ≤ maxDepth
  spelled : event.Spelled code
  readable : event.Readable

def scopesOf (opened : List Opened) : OpenScopes := opened.map Opened.scope

@[simp] theorem scopesOf_nil : scopesOf [] = [] := rfl

@[simp] theorem scopesOf_cons (inner : Opened) (opened : List Opened) :
    scopesOf (inner :: opened) = inner.scope :: scopesOf opened := rfl

@[simp] theorem length_scopesOf (opened : List Opened) :
    (scopesOf opened).length = opened.length := List.length_map ..

namespace Reader

def Stage.scope : Stage → Scope
  | .element | .afterElementWord _ _ | .pairText _ => .list
  | _ => .object

/-- The words and comments that a stage keeps are such as a text spells, and it waits for
code only under the names of code. -/
def Stage.Sound (code : Names) : Stage → Prop
  | .value name _ => code.contains name = false
  | .code name => code.contains name = true
  | .afterWord name word _ comments =>
      code.contains name = false ∧ isWord word.toList = true ∧
        ∀ text ∈ comments, IsLine text.toList
  | .afterElementWord word comments =>
      isWord word.toList = true ∧ ∀ text ∈ comments, IsLine text.toList
  | .pairText reference => isWord reference.toList = true
  | .member | .colon _ _ | .element => True

structure Sound (code : Names) (reader : Reader) : Prop where
  scope : (scopesOf reader.opened).current = reader.stage.scope
  depth : reader.opened.length ≤ maxDepth
  stage : reader.stage.Sound code

theorem start_sound (code : Names) : start.Sound code := ⟨rfl, Nat.zero_le _, trivial⟩

theorem between_scope (opened : List Opened) :
    (between opened).scope = (scopesOf opened).current := by
  cases opened with
  | nil => rfl
  | cons inner outer =>
      obtain ⟨scope, span⟩ := inner
      cases scope <;> rfl

theorem between_of_object {opened : List Opened}
    (h : (scopesOf opened).current = .object) : between opened = .member := by
  cases opened with
  | nil => rfl
  | cons inner outer =>
      obtain ⟨scope, span⟩ := inner
      obtain rfl : scope = .object := h
      rfl

theorem between_of_list {opened : List Opened}
    (h : (scopesOf opened).current = .list) : between opened = .element := by
  cases opened with
  | nil => cases h
  | cons inner outer =>
      obtain ⟨scope, span⟩ := inner
      obtain rfl : scope = .list := h
      rfl

theorem between_sound (code : Names) {opened : List Opened} (hdepth : opened.length ≤ maxDepth) :
    Sound code ⟨opened, between opened⟩ := by
  refine ⟨(between_scope opened).symm, hdepth, ?_⟩
  cases opened with
  | nil => trivial
  | cons inner outer =>
      obtain ⟨scope, span⟩ := inner
      cases scope <;> trivial

end Reader

/-- What holds of one step inside some open scopes: the events lead to the scopes of the
next reader, and to the scopes left open where the reading ends. -/
def Progress.Sound (code : Names) (opened : List Opened) : Progress → Prop
  | .onward events reader =>
      Leads (Told code) (scopesOf opened) events (scopesOf reader.opened) ∧ reader.Sound code
  | .failed events _ => Leads (Told code) (scopesOf opened) events (scopesOf opened)
  | .finished events => Leads (Told code) (scopesOf opened) events []

theorem Progress.Sound.before {code : Names} {opened : List Opened} {progress : Progress}
    {front : List Event} (hfront : Leads (Told code) (scopesOf opened) front (scopesOf opened))
    (h : progress.Sound code opened) : (progress.before front).Sound code opened := by
  cases progress with
  | onward events reader => exact ⟨hfront.append h.1, h.2⟩
  | failed events error => exact hfront.append h
  | finished events => exact hfront.append h

section Items
variable {code : Names} {opened : List Opened}

/-- An event that neither opens nor closes a scope leaves the open ones as they are. -/
theorem leads_item {event : Event} (hdepth : opened.length ≤ maxDepth)
    (hopens : event.opens? = none) (hclose : event ≠ .close)
    (hfit : event.fit? (scopesOf opened).current = some event) (hspelled : event.Spelled code)
    (hreadable : event.Readable) :
    Leads (Told code) (scopesOf opened) [event] (scopesOf opened) := by
  have hafter := OpenScopes.after_eq_self hopens hclose (scopesOf opened)
  refine ⟨⟨.of_fit? hclose hfit, ?_, hspelled, hreadable⟩, hafter⟩
  rw [hafter, length_scopesOf]
  exact hdepth

theorem leads_comment (hdepth : opened.length ≤ maxDepth) {text : String}
    (hline : IsLine text.toList) :
    Leads (Told code) (scopesOf opened) [.comment text] (scopesOf opened) :=
  leads_item hdepth rfl (by simp) (Event.fit?_comment _ text) trivial hline

theorem leads_comments (hdepth : opened.length ≤ maxDepth) {texts : List String}
    (hlines : ∀ text ∈ texts, IsLine text.toList) :
    Leads (Told code) (scopesOf opened) (Event.comments texts) (scopesOf opened) := by
  induction texts with
  | nil => rfl
  | cons text texts ih =>
      exact (leads_comment hdepth (hlines text List.mem_cons_self)).append
        (ih fun other hother => hlines other (List.mem_cons_of_mem _ hother))

theorem leads_close (inner : Opened) (hdepth : (inner :: opened).length ≤ maxDepth) :
    Leads (Told code) (scopesOf (inner :: opened)) [.close] (scopesOf opened) := by
  refine ⟨⟨⟨by simp, Event.fit?_close _⟩, ?_, trivial, trivial⟩, rfl⟩
  simp only [List.length_cons] at hdepth
  simp only [scopesOf_cons, OpenScopes.after_close, List.tail_cons, length_scopesOf]
  omega

theorem leads_closings (hdepth : opened.length ≤ maxDepth) :
    Leads (Told code) (scopesOf opened) (Reader.closings opened) [] := by
  induction opened with
  | nil => rfl
  | cons inner opened ih =>
      simp only [List.length_cons] at hdepth
      exact (leads_close inner hdepth).append (ih (by omega))

end Items

namespace Reader

section Handlers
variable {code : Names} {opened : List Opened} {lexeme : Lexeme}

private theorem wordEvent_leads {name : Option String} {word : String}
    (hdepth : opened.length ≤ maxDepth)
    (hfit : (wordEvent name word).fit? (scopesOf opened).current = some (wordEvent name word))
    (hname : ∀ text ∈ name, code.contains text = false) (hword : isWord word.toList = true) :
    Leads (Told code) (scopesOf opened) [wordEvent name word] (scopesOf opened) := by
  unfold wordEvent at hfit ⊢
  cases htruth : truthOfWord? word.toList with
  | none =>
      rw [htruth] at hfit
      exact leads_item hdepth rfl (by simp) hfit ⟨hname, by simp [isBareWord, hword, htruth]⟩
        trivial
  | some value =>
      rw [htruth] at hfit
      exact leads_item hdepth rfl (by simp) hfit hname trivial

theorem enter_sound {events : List Event} {event : Event} {scope : Scope} {span : Span}
    (hevents : Leads (Told code) (scopesOf opened) events (scopesOf opened))
    (hopens : event.opens? = some scope)
    (hfit : event.fit? (scopesOf opened).current = some event) (hspelled : event.Spelled code)
    (hreadable : event.Readable) : (enter opened events event scope span).Sound code opened := by
  unfold enter
  split
  · rename_i hlt
    have hafter := OpenScopes.after_eq_cons hopens (scopesOf opened)
    have hdepth : (⟨scope, span⟩ :: opened : List Opened).length ≤ maxDepth := hlt
    have hclose : event ≠ .close := by
      rintro rfl
      cases hopens
    refine ⟨hevents.append ⟨⟨.of_fit? hclose hfit, ?_, hspelled, hreadable⟩, hafter⟩,
      between_sound code hdepth⟩
    rw [hafter, List.length_cons, length_scopesOf]
    exact hlt
  · exact hevents

theorem leave_sound {inner : Opened} (hdepth : (inner :: opened).length ≤ maxDepth) :
    (leave opened).Sound code (inner :: opened) := by
  refine ⟨leads_close inner hdepth, between_sound code ?_⟩
  simp only [List.length_cons] at hdepth
  omega

theorem onMember_sound (hscope : (scopesOf opened).current = .object)
    (hdepth : opened.length ≤ maxDepth) (hlexeme : lexeme.kind.Spelled) :
    (onMember opened lexeme).Sound code opened := by
  unfold onMember
  split
  · rename_i text hkind
    rw [hkind] at hlexeme
    exact ⟨leads_comment hdepth hlexeme, hscope, hdepth, trivial⟩
  · exact ⟨rfl, hscope, hdepth, trivial⟩
  · exact ⟨rfl, hscope, hdepth, trivial⟩
  · exact ⟨rfl, hscope, hdepth, trivial⟩
  · split
    · exact rfl
    · exact leave_sound hdepth
  · split
    · exact rfl
    · exact rfl
  · exact rfl
  · exact rfl
  · exact rfl

theorem onColon_sound {name : String} {span : Span} (hscope : (scopesOf opened).current = .object)
    (hdepth : opened.length ≤ maxDepth) (hlexeme : lexeme.kind.Spelled) :
    (onColon code opened name span lexeme).Sound code opened := by
  unfold onColon
  split
  · rename_i text hkind
    rw [hkind] at hlexeme
    exact ⟨leads_comment hdepth hlexeme, hscope, hdepth, trivial⟩
  · cases hname : code.contains name with
    | true => exact ⟨rfl, hscope, hdepth, hname⟩
    | false => exact ⟨rfl, hscope, hdepth, hname⟩
  · exact rfl
  · exact rfl

theorem onValue_sound {name : String} {span : Span} (hscope : (scopesOf opened).current = .object)
    (hdepth : opened.length ≤ maxDepth) (hname : code.contains name = false)
    (hlexeme : lexeme.kind.Spelled) : (onValue opened name span lexeme).Sound code opened := by
  have hnames : ∀ text ∈ some name, code.contains text = false := Event.named_spelled hname
  unfold onValue
  split
  · rename_i text hkind
    rw [hkind] at hlexeme
    exact ⟨leads_comment hdepth hlexeme, hscope, hdepth, hname⟩
  · rename_i value hkind
    rw [hkind] at hlexeme
    exact ⟨leads_item hdepth rfl (by simp) (by rw [hscope]; rfl) hnames hlexeme,
      hscope, hdepth, trivial⟩
  · exact ⟨leads_item hdepth rfl (by simp) (by rw [hscope]; rfl) hnames trivial,
      hscope, hdepth, trivial⟩
  · rename_i word hkind
    rw [hkind] at hlexeme
    exact ⟨rfl, hscope, hdepth, hname, hlexeme, by simp⟩
  · exact enter_sound rfl rfl (by rw [hscope]; rfl) hname trivial
  · exact enter_sound rfl rfl (by rw [hscope]; rfl) hnames trivial
  · exact rfl
  · exact rfl
  · exact rfl

theorem onElement_sound (hscope : (scopesOf opened).current = .list)
    (hdepth : opened.length ≤ maxDepth) (hlexeme : lexeme.kind.Spelled) :
    (onElement opened lexeme).Sound code opened := by
  have hnames : ∀ text ∈ (none : Option String), code.contains text = false :=
    Event.unnamed_spelled code
  unfold onElement
  split
  · rename_i text hkind
    rw [hkind] at hlexeme
    exact ⟨leads_comment hdepth hlexeme, hscope, hdepth, trivial⟩
  · exact ⟨rfl, hscope, hdepth, trivial⟩
  · cases opened with
    | nil => cases hscope
    | cons inner outer => exact leave_sound hdepth
  · rename_i value hkind
    rw [hkind] at hlexeme
    exact ⟨leads_item hdepth rfl (by simp) (by rw [hscope]; rfl) hnames hlexeme,
      hscope, hdepth, trivial⟩
  · exact ⟨leads_item hdepth rfl (by simp) (by rw [hscope]; rfl) hnames trivial,
      hscope, hdepth, trivial⟩
  · rename_i word hkind
    rw [hkind] at hlexeme
    exact ⟨rfl, hscope, hdepth, hlexeme, by simp⟩
  · exact enter_sound rfl rfl (by rw [hscope]; rfl) hnames trivial
  · exact rfl
  · exact rfl
  · exact rfl

theorem onPairText_sound {reference : String} (hscope : (scopesOf opened).current = .list)
    (hdepth : opened.length ≤ maxDepth) (hreference : isWord reference.toList = true)
    (hlexeme : lexeme.kind.Spelled) : (onPairText opened reference lexeme).Sound code opened := by
  unfold onPairText
  split
  · rename_i text hkind
    rw [hkind] at hlexeme
    exact ⟨leads_comment hdepth hlexeme, hscope, hdepth, hreference⟩
  · exact ⟨leads_item hdepth rfl (by simp) (by rw [hscope]; rfl) hreference trivial,
      hscope, hdepth, trivial⟩
  · exact rfl
  · exact rfl

private theorem lines_concat {comments : List String} {text : String}
    (hlines : ∀ text ∈ comments, IsLine text.toList) (hline : IsLine text.toList) :
    ∀ other ∈ comments ++ [text], IsLine other.toList := by
  intro other hother
  rcases List.mem_append.mp hother with hmem | hmem
  · exact hlines other hmem
  · exact List.mem_singleton.mp hmem ▸ hline

theorem onAfterWord_sound {name word : String} {span : Span} {comments : List String}
    (hscope : (scopesOf opened).current = .object) (hdepth : opened.length ≤ maxDepth)
    (hstage : (Stage.afterWord name word span comments).Sound code)
    (hlexeme : lexeme.kind.Spelled) :
    (onAfterWord opened name word span comments lexeme).Sound code opened := by
  obtain ⟨hname, hword, hlines⟩ := hstage
  have hnames : ∀ text ∈ some name, code.contains text = false := Event.named_spelled hname
  have hcomments : Leads (Told code) (scopesOf opened) (Event.comments comments)
      (scopesOf opened) := leads_comments hdepth hlines
  unfold onAfterWord
  split
  · rename_i text hkind
    rw [hkind] at hlexeme
    exact ⟨rfl, hscope, hdepth, hname, hword, lines_concat hlines hlexeme⟩
  · exact enter_sound hcomments rfl (by rw [hscope]; rfl) ⟨hname, hword⟩ trivial
  · have hfit : (wordEvent (some name) word).fit? (scopesOf opened).current =
        some (wordEvent (some name) word) := by
      rw [hscope, wordEvent]
      split <;> rfl
    exact ((wordEvent_leads hdepth hfit hnames hword).append hcomments |> Progress.Sound.before)
      (onMember_sound hscope hdepth hlexeme)

theorem onAfterElementWord_sound {word : String} {comments : List String}
    (hscope : (scopesOf opened).current = .list) (hdepth : opened.length ≤ maxDepth)
    (hstage : (Stage.afterElementWord word comments).Sound code)
    (hlexeme : lexeme.kind.Spelled) :
    (onAfterElementWord opened word comments lexeme).Sound code opened := by
  obtain ⟨hword, hlines⟩ := hstage
  have hnames : ∀ text ∈ (none : Option String), code.contains text = false :=
    Event.unnamed_spelled code
  have hcomments : Leads (Told code) (scopesOf opened) (Event.comments comments)
      (scopesOf opened) := leads_comments hdepth hlines
  unfold onAfterElementWord
  split
  · rename_i text hkind
    rw [hkind] at hlexeme
    exact ⟨rfl, hscope, hdepth, hword, lines_concat hlines hlexeme⟩
  · exact ⟨hcomments, hscope, hdepth, hword⟩
  · have hfit : (wordEvent none word).fit? (scopesOf opened).current =
        some (wordEvent none word) := by
      rw [hscope, wordEvent]
      split <;> rfl
    exact ((wordEvent_leads hdepth hfit hnames hword).append hcomments |> Progress.Sound.before)
      (onElement_sound hscope hdepth hlexeme)

end Handlers

theorem step_sound {code : Names} {reader : Reader} (cursor : Cursor)
    (hreader : reader.Sound code) :
    (reader.step code cursor.lexeme.1).Sound code reader.opened := by
  have hlexeme : cursor.lexeme.1.kind.Spelled := by
    rw [Cursor.lexeme_kind]
    exact Lexeme.next_spelled _
  obtain ⟨opened, stage⟩ := reader
  obtain ⟨hscope, hdepth, hstage⟩ := hreader
  cases stage with
  | member => exact onMember_sound hscope hdepth hlexeme
  | colon name span => exact onColon_sound hscope hdepth hlexeme
  | code name => exact rfl
  | value name span => exact onValue_sound hscope hdepth hstage hlexeme
  | afterWord name word span comments => exact onAfterWord_sound hscope hdepth hstage hlexeme
  | element => exact onElement_sound hscope hdepth hlexeme
  | afterElementWord word comments => exact onAfterElementWord_sound hscope hdepth hstage hlexeme
  | pairText reference => exact onPairText_sound hscope hdepth hstage hlexeme

theorem codeBlock_sound {code : Names} {opened : List Opened} {name text : String} {span : Span}
    {cursor next : Cursor} (hreader : Sound code ⟨opened, .code name⟩)
    (h : cursor.codeBlock = .ok (text, span, next)) :
    Leads (Told code) (scopesOf opened) [.code name text] (scopesOf opened) := by
  obtain ⟨front, hsplit, rfl⟩ := Cursor.splitCode_of_codeBlock h
  have hscope : (scopesOf opened).current = .object := hreader.scope
  refine leads_item hreader.depth rfl (by simp) (by rw [hscope]; rfl) ⟨hreader.stage, ?_⟩ trivial
  rw [String.toList_ofList]
  exact isCode_trimBlank hsplit

/-- A run tells events that lead out of all open scopes, also where an error stops it. -/
theorem run_sound {code : Names} {reader : Reader} {cursor : Cursor}
    (hreader : reader.Sound code) :
    Leads (Told code) (scopesOf reader.opened) (reader.run code cursor).events [] := by
  fun_induction run code reader cursor with
  | case1 reader cursor name hstage text span next hcode ih =>
      obtain ⟨opened, stage⟩ := reader
      obtain rfl := hstage
      exact (codeBlock_sound hreader hcode).append
        (ih ⟨hreader.scope, hreader.depth, trivial⟩)
  | case2 reader cursor name hstage error hcode => exact leads_closings hreader.depth
  | case3 reader cursor events next hstep hstage ih =>
      have hsound := step_sound cursor hreader
      rw [hstep] at hsound
      exact hsound.1.append (ih hsound.2)
  | case4 reader cursor events error hstep hstage =>
      have hsound := step_sound cursor hreader
      rw [hstep] at hsound
      exact Leads.append hsound (leads_closings hreader.depth)
  | case5 reader cursor events hstep hstage =>
      have hsound := step_sound cursor hreader
      rw [hstep] at hsound
      exact hsound

end Reader

theorem Reading.told (code : Names) (source : List Char) :
    Leads (Told code) [] (Reading.ofText code source).events [] :=
  Reader.run_sound (Reader.start_sound code)

theorem Reading.balanced (code : Names) (source : List Char) :
    Balanced (Reading.ofText code source).events :=
  (told code source).mono fun _ _ hevent => hevent.takes

theorem Reading.worded (code : Names) (source : List Char) :
    ∀ event ∈ (Reading.ofText code source).events, event.IsWorded :=
  (told code source).forall_mem fun _ _ hevent => hevent.spelled.isWorded

end Lookml
