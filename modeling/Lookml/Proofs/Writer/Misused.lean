import Lookml.Proofs.Writer.Calls

/-!
Misuse of a writer is reported and does no harm. Which calls fail is told by the scopes
that the calls before have left open, and a call that fails leaves the writer as it is;
one that succeeds adds to the text and opens or ends one scope at most. So what any calls
leave is what those of them leave that succeed.
-/

namespace Lookml

namespace Writer

namespace Call

/-- The scope that a call opens. -/
def begins? : Call → Option Scope
  | .beginDocument | .beginObject | .beginNamed _ => some .object
  | .beginList => some .list
  | _ => none

def isEnd : Call → Bool
  | .endObject | .endList => true
  | _ => false

/-- What is wrong with a call inside the innermost of the open scopes. -/
def misuse? (innermost : Option Scope) : Call → Option Misuse
  | .key _ => if innermost = some .object then none else some .keyOutsideObject
  | .element => if innermost = some .list then none else some .elementOutsideList
  | .endObject =>
      match innermost with
      | some .object => none
      | some .list => some .objectEndInList
      | none => some .objectEndUnopened
  | .endList =>
      match innermost with
      | some .list => none
      | some .object => some .listEndInObject
      | none => some .listEndUnopened
  | _ => none

section Fits
variable {innermost : Option Scope}

@[simp] theorem misuse?_key {name : String} :
    misuse? innermost (.key name) = none ↔ innermost = some .object := by
  simp [misuse?]

@[simp] theorem misuse?_element : misuse? innermost .element = none ↔ innermost = some .list := by
  simp [misuse?]

@[simp] theorem misuse?_endObject :
    misuse? innermost .endObject = none ↔ innermost = some .object := by
  obtain _ | (_ | _) := innermost <;> simp [misuse?]

@[simp] theorem misuse?_endList : misuse? innermost .endList = none ↔ innermost = some .list := by
  obtain _ | (_ | _) := innermost <;> simp [misuse?]

end Fits

/-- The open scopes behind a call that fits. -/
def leads (scopes : List Scope) (call : Call) : List Scope :=
  if call.isEnd then scopes.tail else call.begins?.toList ++ scopes

/-- A call that does not fit is passed over. -/
def after (scopes : List Scope) (call : Call) : List Scope :=
  if call.misuse? scopes.head? = none then call.leads scopes else scopes

/-- A scope that ends was open, so one fewer is open behind it. -/
theorem length_leads {scopes : List Scope} {call : Call} (h : call.misuse? scopes.head? = none) :
    (call.leads scopes).length + (if call.isEnd then 1 else 0) =
      scopes.length + if call.begins?.isSome then 1 else 0 := by
  cases scopes with
  | nil => cases call <;> simp_all [misuse?, leads, isEnd, begins?]
  | cons inner outer => cases call <;> simp [leads, isEnd, begins?]

end Call

/-- The scopes that calls leave open, the innermost first, told by the calls alone. -/
def openAfter (calls : List Call) : List Scope := calls.foldl Call.after []

def run (writer : Writer) (calls : List Call) : Writer :=
  calls.foldl (fun writer call => (writer.call call).1) writer

/-- The writer after some calls; it goes on after a call that fails. -/
def ofCalls (layout : Layout) (calls : List Call) : Writer := (new layout).run calls

/-- The calls that succeed, one after the other. -/
def succeeding (writer : Writer) : List Call → List Call
  | [] => []
  | call :: calls =>
      match writer.call call with
      | (next, none) => call :: next.succeeding calls
      | (next, some _) => next.succeeding calls

def scopes (writer : Writer) : List Scope := writer.opened.map Open.scope

theorem innermost?_eq (writer : Writer) : writer.innermost? = writer.scopes.head? := by
  rw [innermost?, scopes, List.head?_map]

theorem depth_eq (writer : Writer) : writer.depth = writer.scopes.length := by
  rw [depth, scopes, List.length_map]

/-- One writer goes on from another: its text starts with the text of that, and these
scopes are open. -/
structure Extends (writer next : Writer) (scopes : List Scope) : Prop where
  output : ∃ text, next.output = writer.output ++ text
  scopes : next.scopes = scopes
  roots : writer.RootsAreObjects → next.RootsAreObjects

namespace Extends

variable {writer next : Writer} {scopes : List Scope}

theorem refl (writer : Writer) : Extends writer writer writer.scopes :=
  ⟨⟨"", by rw [String.append_empty]⟩, rfl, id⟩

theorem put (h : Extends writer next scopes) (text : String) :
    Extends writer (next.put text) scopes := by
  obtain ⟨front, hfront⟩ := h.output
  refine ⟨⟨front ++ text, ?_⟩, h.scopes, h.roots⟩
  rw [Writer.put, hfront, String.append_assoc]

theorem beginScope (h : Extends writer next scopes) {scope : Scope} {isRoot : Bool}
    (hroot : isRoot = true → scope = .object) :
    Extends writer (next.beginScope scope isRoot) (scope :: scopes) where
  output := h.output
  scopes := congrArg (scope :: ·) h.scopes
  roots hroots := List.forall_mem_cons.mpr ⟨hroot, h.roots hroots⟩

theorem item (writer : Writer) (isComment : Bool) :
    Extends writer (writer.item isComment) writer.scopes := by
  obtain ⟨layout, output, opened⟩ := writer
  cases opened with
  | nil => exact refl _
  | cons inner outer =>
      refine ⟨⟨_, rfl⟩, rfl, fun hroots => ?_⟩
      obtain ⟨hinner, houter⟩ := List.forall_mem_cons.mp hroots
      exact List.forall_mem_cons.mpr ⟨hinner, houter⟩

theorem leave {inner : Open} {outer : List Open} (hopened : writer.opened = inner :: outer)
    (closer : String) : Extends writer (writer.leave inner outer closer) writer.scopes.tail := by
  have htail : writer.scopes.tail = outer.map Open.scope := by
    rw [Writer.scopes, hopened]
    rfl
  refine ⟨⟨_, String.append_assoc ..⟩, htail.symm, fun hroots => ?_⟩
  rw [RootsAreObjects, hopened] at hroots
  exact (List.forall_mem_cons.mp hroots).2

end Extends

section Steps
variable {writer : Writer} {call : Call}

theorem exists_cons {scope : Scope} (h : writer.scopes.head? = some scope) :
    ∃ inner outer, writer.opened = inner :: outer ∧ inner.scope = scope := by
  rw [scopes, List.head?_map, Option.map_eq_some_iff] at h
  obtain ⟨inner, hinner, hscope⟩ := h
  obtain ⟨outer, hopened⟩ := List.head?_eq_some_iff.mp hinner
  exact ⟨inner, outer, hopened, hscope⟩

theorem perform_of_misuse {misuse : Misuse} (h : call.misuse? writer.scopes.head? = some misuse) :
    writer.perform call = .error misuse := by
  rw [← innermost?_eq] at h
  obtain ⟨layout, output, opened⟩ := writer
  cases call with
  | key name =>
      simp only [Call.misuse?] at h
      split at h
      · cases h
      · obtain rfl := Option.some.inj h
        exact if_neg ‹_›
  | element =>
      simp only [Call.misuse?] at h
      split at h
      · cases h
      · obtain rfl := Option.some.inj h
        exact if_neg ‹_›
  | endObject =>
      cases opened with
      | nil => cases h; rfl
      | cons inner outer =>
          obtain ⟨scope, isRoot, isEmpty, separate⟩ := inner
          cases scope <;> cases h
          rfl
  | endList =>
      cases opened with
      | nil => cases h; rfl
      | cons inner outer =>
          obtain ⟨scope, isRoot, isEmpty, separate⟩ := inner
          cases scope <;> cases h
          rfl
  | _ => cases h

theorem perform_of_fits (h : call.misuse? writer.scopes.head? = none) :
    ∃ next, writer.perform call = .ok next ∧ Extends writer next (call.leads writer.scopes) := by
  have hwriter := Extends.refl writer
  cases call with
  | beginDocument => exact ⟨_, rfl, hwriter.beginScope fun _ => rfl⟩
  | beginObject => exact ⟨_, rfl, (hwriter.put _).beginScope nofun⟩
  | beginNamed instanceName => exact ⟨_, rfl, ((hwriter.put _).put _).beginScope nofun⟩
  | beginList => exact ⟨_, rfl, (hwriter.put _).beginScope nofun⟩
  | endObject =>
      obtain ⟨inner, outer, hopened, hscope⟩ := exists_cons (Call.misuse?_endObject.mp h)
      refine ⟨_, ?_, .leave hopened "\x7d"⟩
      simp only [perform, endObject, hopened, hscope]
  | endList =>
      obtain ⟨inner, outer, hopened, hscope⟩ := exists_cons (Call.misuse?_endList.mp h)
      refine ⟨_, ?_, .leave hopened "]"⟩
      simp only [perform, endList, hopened, hscope]
  | key name =>
      have hinnermost := writer.innermost?_eq.trans (Call.misuse?_key.mp h)
      exact ⟨_, if_pos hinnermost, (Extends.item writer false).put _⟩
  | element =>
      have hinnermost := writer.innermost?_eq.trans (Call.misuse?_element.mp h)
      exact ⟨_, if_pos hinnermost, .item writer false⟩
  | comment text => exact ⟨_, rfl, (Extends.item writer true).put _⟩
  | number value => exact ⟨_, rfl, hwriter.put _⟩
  | truth value => exact ⟨_, rfl, hwriter.put _⟩
  | string text => exact ⟨_, rfl, hwriter.put _⟩
  | identifier text => exact ⟨_, rfl, hwriter.put _⟩
  | code text => exact ⟨_, rfl, hwriter.put _⟩
  | pair reference text => exact ⟨_, rfl, hwriter.put _⟩

section Calls
variable (hroots : writer.RootsAreObjects)
include hroots

theorem call_of_misuse {misuse : Misuse} (h : call.misuse? writer.scopes.head? = some misuse) :
    writer.call call = (writer, some misuse) := by
  rw [call_eq_settled hroots, perform_of_misuse h]
  rfl

theorem call_of_fits (h : call.misuse? writer.scopes.head? = none) :
    ∃ next, writer.call call = (next, none) ∧ Extends writer next (call.leads writer.scopes) := by
  obtain ⟨next, hnext, hextends⟩ := perform_of_fits h
  refine ⟨next, ?_, hextends⟩
  rw [call_eq_settled hroots, hnext]
  rfl

theorem call_misuse (call : Call) : (writer.call call).2 = call.misuse? writer.scopes.head? := by
  cases h : call.misuse? writer.scopes.head? with
  | some misuse => rw [call_of_misuse hroots h]
  | none =>
      obtain ⟨next, hnext, -⟩ := call_of_fits hroots h
      rw [hnext]

/-- Whether or not it succeeds, a call leaves the scopes that it should. -/
theorem call_extends (call : Call) :
    Extends writer (writer.call call).1 (call.after writer.scopes) := by
  cases h : call.misuse? writer.scopes.head? with
  | some misuse =>
      rw [call_of_misuse hroots h, Call.after, if_neg (by simp [h])]
      exact .refl writer
  | none =>
      obtain ⟨next, hnext, hextends⟩ := call_of_fits hroots h
      rw [hnext, Call.after, if_pos h]
      exact hextends

end Calls

end Steps

section Runs
variable {writer : Writer}

theorem run_cons (writer : Writer) (call : Call) (calls : List Call) :
    writer.run (call :: calls) = (writer.call call).1.run calls := rfl

theorem run_append (writer : Writer) (calls later : List Call) :
    writer.run (calls ++ later) = (writer.run calls).run later :=
  List.foldl_append

theorem run_scopes (hroots : writer.RootsAreObjects) (calls : List Call) :
    (writer.run calls).RootsAreObjects ∧
      (writer.run calls).scopes = calls.foldl Call.after writer.scopes := by
  induction calls generalizing writer with
  | nil => exact ⟨hroots, rfl⟩
  | cons call calls ih =>
      have hcall := call_extends hroots call
      obtain ⟨hlast, hscopes⟩ := ih (hcall.roots hroots)
      exact ⟨hlast, by rw [run_cons, hscopes, hcall.scopes, List.foldl_cons]⟩

theorem run_succeeding (hroots : writer.RootsAreObjects) (calls : List Call) :
    writer.run (writer.succeeding calls) = writer.run calls := by
  induction calls generalizing writer with
  | nil => rfl
  | cons call calls ih =>
      cases h : call.misuse? writer.scopes.head? with
      | some misuse =>
          have hcall := call_of_misuse hroots h
          rw [succeeding, hcall, run_cons, hcall]
          exact ih hroots
      | none =>
          obtain ⟨next, hnext, hextends⟩ := call_of_fits hroots h
          rw [succeeding, hnext, run_cons, run_cons, hnext]
          exact ih (hextends.roots hroots)

theorem depth_run (hroots : writer.RootsAreObjects) (calls : List Call) :
    (writer.run calls).depth + (writer.succeeding calls).countP Call.isEnd =
      writer.depth + calls.countP fun call => call.begins?.isSome := by
  induction calls generalizing writer with
  | nil => rfl
  | cons call calls ih =>
      cases h : call.misuse? writer.scopes.head? with
      | some misuse =>
          -- A call that begins a scope fits everywhere.
          have hbegins : call.begins? = none := by
            cases call <;> first | rfl | cases h
          have hcall := call_of_misuse hroots h
          rw [succeeding, hcall, run_cons, hcall, ih hroots,
            List.countP_cons_of_neg (by simp [hbegins])]
      | none =>
          obtain ⟨next, hnext, hextends⟩ := call_of_fits hroots h
          have hlength := Call.length_leads h
          rw [← hextends.scopes, ← depth_eq, ← depth_eq] at hlength
          have hlater := ih (hextends.roots hroots)
          simp only [succeeding, run_cons, hnext, List.countP_cons]
          omega

end Runs

def Fails (writer : Writer) (call : Call) : Prop := (writer.call call).2 ≠ none

/-- Whatever calls a writer has had, a key or the end of an object fails exactly if the
innermost open scope is not an object, an element or the end of a list exactly if it is
not a list, and no other call; the misuse is reported. A call that fails leaves the writer
as it was for all later ones, and one that succeeds only adds to the text. The scopes
begun and not ended with success are those that are open. -/
theorem misuse_harmless (layout : Layout) (calls : List Call) :
    let writer := ofCalls layout calls
    let innermost := (openAfter calls).head?
    writer.scopes = openAfter calls ∧
    (∀ name, writer.Fails (.key name) ↔ innermost ≠ some .object) ∧
    (writer.Fails .element ↔ innermost ≠ some .list) ∧
    (writer.Fails .endObject ↔ innermost ≠ some .object) ∧
    (writer.Fails .endList ↔ innermost ≠ some .list) ∧
    (∀ call, (writer.call call).2 = call.misuse? innermost ∧
      writer.call call = writer.settled (writer.perform call)) ∧
    (∀ call, writer.Fails call →
      (writer.call call).1 = writer ∧
        ∀ later, ofCalls layout (calls ++ call :: later) = ofCalls layout (calls ++ later)) ∧
    (∀ call, ¬writer.Fails call → ∃ text, (writer.call call).1.output = writer.output ++ text) ∧
    ofCalls layout ((new layout).succeeding calls) = writer ∧
    writer.depth + ((new layout).succeeding calls).countP Call.isEnd =
      calls.countP fun call => call.begins?.isSome := by
  intro writer innermost
  have hnew : (new layout).RootsAreObjects := by
    rintro inner ⟨⟩
  obtain ⟨hroots, hscopes⟩ : writer.RootsAreObjects ∧ writer.scopes = openAfter calls :=
    run_scopes hnew calls
  have hmisuse (call : Call) : (writer.call call).2 = call.misuse? innermost := by
    rw [call_misuse hroots, hscopes]
  have hfails (call : Call) : writer.Fails call ↔ ¬call.misuse? innermost = none := by
    rw [Fails, hmisuse]
  refine ⟨hscopes, fun name => ?_, ?_, ?_, ?_,
    fun call => ⟨hmisuse call, call_eq_settled hroots call⟩, fun call h => ?_,
    fun call _ => (call_extends hroots call).output, run_succeeding hnew calls, ?_⟩
  · rw [hfails, Call.misuse?_key]
  · rw [hfails, Call.misuse?_element]
  · rw [hfails, Call.misuse?_endObject]
  · rw [hfails, Call.misuse?_endList]
  · obtain ⟨misuse, hcall⟩ := Option.ne_none_iff_exists'.mp h
    rw [call_misuse hroots] at hcall
    have hsame : (writer.call call).1 = writer := by rw [call_of_misuse hroots hcall]
    refine ⟨hsame, fun later => ?_⟩
    simp only [ofCalls, run_append, run_cons]
    exact congrArg (run · later) hsame
  · have hdepth := depth_run hnew calls
    rwa [show (new layout).depth = 0 from rfl, Nat.zero_add] at hdepth

/-- A key and the end of an object fail in a list, and the list still ends. -/
theorem misuse_harmless_list :
    let calls : List Call := [.key "x", .beginList, .key "x", .endObject]
    let writer := ofCalls .standard calls
    writer.Fails .endObject ∧ (writer.call .endObject).1 = writer ∧ ¬writer.Fails .endList ∧
      (∃ text, (writer.call .endList).1.output = writer.output ++ text) ∧
      writer.depth = 1 := by
  intro calls writer
  obtain ⟨-, -, -, hobject, hlist, -, hsame, hadds, -, hdepth⟩ := misuse_harmless .standard calls
  have hfails : writer.Fails .endObject := hobject.mpr (by decide)
  have hfits : ¬writer.Fails .endList := fun h => hlist.mp h rfl
  exact ⟨hfails, (hsame _ hfails).1, hfits, hadds _ hfits, hdepth⟩

end Writer

end Lookml
