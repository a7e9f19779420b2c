import Lookml.Proofs.Conformance.Judging
import Lookml.Proofs.Conformance.Marking

/-!
Each item of a checked document beside its siblings: whether it is kept, and if not why,
hangs on the ground of its scope and on the items kept before it there.
-/

namespace Lookml

/-- Two items that are taken under one name in an object. -/
def Event.SharesKey (event other : Event) : Prop :=
  ∃ key, event.key? = some key ∧ other.key? = some key

/-- How an item fares on a ground, behind the items of its scope that are kept before
it. -/
inductive Fares (schema : Schema) (ground : Ground) (earlier : List Event) (event : Event) :
    Option Violation → Prop
  | kept (haccepts : ground.Accepts schema event)
      (hfresh : ∀ other ∈ earlier, ¬event.SharesKey other) : Fares schema ground earlier event none
  | duplicate {other : Event} (haccepts : ground.Accepts schema event) (hmem : other ∈ earlier)
      (hshares : event.SharesKey other) : Fares schema ground earlier event (some event.duplicate)
  | unacceptable {violation : Violation} (hnot : ¬ground.Accepts schema event)
      (hother : violation.isDuplicate = false) : Fares schema ground earlier event (some violation)

theorem Fares.accepts {schema : Schema} {ground : Ground} {earlier : List Event} {event : Event}
    (h : Fares schema ground earlier event none) : ground.Accepts schema event := by
  cases h with
  | kept haccepts _ => exact haccepts

namespace Marking

/-- A relation holds of each item that stands in no marked scope, with the ground of its
scope, the items kept before it there, the last one first, and its mark. -/
def EachItem (schema : Schema) (holds : Ground → List Event → Event → Option Violation → Prop) :
    Ground → List Event → Marking → Prop
  | _, _, .nil => True
  | ground, earlier, .keep event rest =>
      holds ground earlier event none ∧ rest.EachItem schema holds ground (event :: earlier)
  | ground, earlier, .enter opening inner rest =>
      holds ground earlier opening none ∧
        (∃ inside, ground.Opens schema opening inside ∧ inner.EachItem schema holds inside []) ∧
        rest.EachItem schema holds ground (opening :: earlier)
  | ground, earlier, .drop violation event rest =>
      holds ground earlier event (some violation) ∧ rest.EachItem schema holds ground earlier
  | ground, earlier, .prune violation opening _ rest =>
      holds ground earlier opening (some violation) ∧ rest.EachItem schema holds ground earlier

/-- What holds of each kept item may be used of the items kept before another one. -/
theorem EachItem.mono {schema : Schema} (admitted : Event → Prop) (known : Ground → Event → Prop)
    {holds holds' : Ground → List Event → Event → Option Violation → Prop}
    (hkept : ∀ {ground earlier event}, ground.Declared schema → admitted event →
      holds ground earlier event none → known ground event)
    (hholds : ∀ {ground earlier event mark}, ground.Declared schema → admitted event →
      (∀ other ∈ earlier, known ground other) → holds ground earlier event mark →
      holds' ground earlier event mark)
    {marking : Marking} {ground : Ground} {earlier : List Event}
    (hground : ground.Declared schema) (hearlier : ∀ other ∈ earlier, known ground other)
    (hadmitted : ∀ event ∈ marking.whole.events, admitted event)
    (h : marking.EachItem schema holds ground earlier) :
    marking.EachItem schema holds' ground earlier := by
  induction marking generalizing ground earlier with
  | nil => trivial
  | keep event rest ih =>
      obtain ⟨hevent, hrest⟩ := h
      obtain ⟨hfirst, hothers⟩ := List.forall_mem_cons.mp hadmitted
      have hknown := List.forall_mem_cons.mpr ⟨hkept hground hfirst hevent, hearlier⟩
      exact ⟨hholds hground hfirst hearlier hevent, ih hground hknown hothers hrest⟩
  | enter opening inner rest ihinner ihrest =>
      obtain ⟨hopening, ⟨inside, hopens, hinner⟩, hrest⟩ := h
      obtain ⟨hfirst, hothers⟩ := List.forall_mem_cons.mp hadmitted
      have hknown := List.forall_mem_cons.mpr ⟨hkept hground hfirst hopening, hearlier⟩
      have hinside : inner.EachItem schema holds' inside [] :=
        ihinner hopens.declared (by simp)
          (fun event hmem => hothers event (List.mem_append_left _ hmem)) hinner
      have hbehind : ∀ event ∈ rest.whole.events, admitted event := fun event hmem =>
        hothers event (List.mem_append_right _ (List.mem_cons_of_mem _ hmem))
      exact ⟨hholds hground hfirst hearlier hopening, ⟨inside, hopens, hinside⟩,
        ihrest hground hknown hbehind hrest⟩
  | drop violation event rest ih =>
      obtain ⟨hevent, hrest⟩ := h
      obtain ⟨hfirst, hothers⟩ := List.forall_mem_cons.mp hadmitted
      exact ⟨hholds hground hfirst hearlier hevent, ih hground hearlier hothers hrest⟩
  | prune violation opening inside rest ih =>
      obtain ⟨hopening, hrest⟩ := h
      obtain ⟨hfirst, hothers⟩ := List.forall_mem_cons.mp hadmitted
      have hbehind : ∀ event ∈ rest.whole.events, admitted event := fun event hmem =>
        hothers event (List.mem_append_right _ (List.mem_cons_of_mem _ hmem))
      exact ⟨hholds hground hfirst hearlier hopening, ih hground hearlier hbehind hrest⟩

end Marking

namespace Checker

section Levels
variable {schema : Schema} {level : Level} {scope : Scope} {event : Event} {earlier : List Event}

/-- The names taken at a level are the keys of the items kept before. -/
def Level.TakenBy (level : Level) (earlier : List Event) : Prop :=
  ∀ key, key ∈ level.taken ↔ ∃ other ∈ earlier, other.key? = some key

theorem Level.ground_take (level : Level) (event : Event) :
    (level.take event).ground = level.ground := by
  cases level with
  | object type taken => cases type <;> rfl
  | list name elements => rfl
  | refused => rfl

theorem key?_eq_none (hfit : event.fit? .list = some event) : event.key? = none := by
  cases event with
  | number given value | truth given value | string given text | identifier given text
  | list given =>
      cases given with
      | none => rfl
      | some name => cases hfit
  | code name text | object name | named name instanceName => cases hfit
  | pair reference text | comment text | close => rfl

theorem Level.TakenBy.take (h : level.TakenBy earlier) (hlevel : level.scope? = some scope)
    (hfit : event.fit? scope = some event) : (level.take event).TakenBy (event :: earlier) := by
  intro key
  have hcons : (∃ other ∈ event :: earlier, other.key? = some key) ↔
      event.key? = some key ∨ key ∈ level.taken := by
    rw [h key]
    simp
  rw [hcons]
  cases level with
  | refused => cases hlevel
  | object type taken => simp [Level.take, Level.taken]
  | list name elements =>
      obtain rfl : Scope.list = scope := Option.some.inj hlevel
      simp [Level.take, Level.taken, key?_eq_none hfit]

theorem Level.TakenBy.fresh_iff (h : level.TakenBy earlier) :
    level.Fresh event ↔ ∀ other ∈ earlier, ¬event.SharesKey other := by
  constructor
  · rintro hfresh other hmem ⟨key, hkey, hother⟩
    exact hfresh key hkey ((h key).mpr ⟨other, hmem, hother⟩)
  · intro hnever key hkey hmem
    obtain ⟨other, hother, hshared⟩ := (h key).mp hmem
    exact hnever other hother ⟨key, hkey, hshared⟩

/-- The mark of an item that is judged. -/
def Judgement.mark : Judgement → Option Violation
  | .refuse violation => some violation
  | _ => none

theorem Judged.fares {judgement : Judgement} (h : Judged schema level event judgement)
    (htaken : level.TakenBy earlier) : Fares schema level.ground earlier event judgement.mark := by
  cases h with
  | keep htakes hfresh => exact .kept (.inl htakes) (htaken.fresh_iff.mp hfresh)
  | enter hopens hempty hfresh => exact .kept (.inr ⟨_, hopens⟩) (htaken.fresh_iff.mp hfresh)
  | unacceptable hnot hother => exact .unacceptable hnot hother
  | duplicate haccepts hnot =>
      rw [htaken.fresh_iff] at hnot
      obtain ⟨other, hmem, hshares⟩ : ∃ other ∈ earlier, event.SharesKey other := by
        simpa using hnot
      exact .duplicate haccepts hmem hshares

end Levels

/-- What holds of every judgement of an item in its scope holds of each item and its
mark. -/
theorem Marks.eachItem {schema : Schema} (hschema : schema.IsClosed)
    {holds : Ground → List Event → Event → Option Violation → Prop}
    (hholds : ∀ {level : Level} {scope : Scope} {earlier : List Event} {event : Event},
      level.scope? = some scope → level.ground.Declared schema → level.TakenBy earlier →
      event ≠ .close → event.fit? scope = some event →
      holds level.ground earlier event (judge schema level event).mark)
    {level : Level} {scope : Scope} {marking : Marking} {earlier : List Event}
    (h : Marks schema level marking) (hlevel : level.scope? = some scope)
    (hground : level.ground.Declared schema) (htaken : level.TakenBy earlier)
    (hfits : marking.whole.Fits scope) :
    marking.EachItem schema holds level.ground earlier := by
  induction h generalizing scope earlier with
  | nil => trivial
  | @keep level next event rest hjudge hrest ih =>
      obtain ⟨⟨hclose, _, hfit⟩, hfitsRest⟩ := hfits
      have hsound : (judge schema level event).Sound scope event := judge_sound hlevel
      have hjudged := judge_judged hschema hlevel hground hclose hfit
      have hevent := hholds hlevel hground htaken hclose hfit
      rw [hjudge] at hsound hjudged hevent
      refine ⟨hevent, ?_⟩
      cases hjudged with
      | keep htakes hfresh =>
          rw [Level.ground_take] at ih
          exact ih hsound.1 hground (htaken.take hlevel hfit) hfitsRest
  | @enter level next inside opening inner rest hjudge hinner hrest ihinner ihrest =>
      obtain ⟨hfit, ⟨opened, hopened, hfitsInner⟩, hfitsRest⟩ := hfits
      have hclose : opening ≠ .close := Forest.ne_close_of_opens hopened
      have hsound : (judge schema level opening).Sound scope opening := judge_sound hlevel
      have hjudged := judge_judged hschema hlevel hground hclose hfit
      have hevent := hholds hlevel hground htaken hclose hfit
      rw [hjudge] at hsound hjudged hevent
      obtain ⟨hnext, other, hother, hinside⟩ := hsound
      obtain rfl : opened = other := Option.some.inj (hopened.symm.trans hother)
      refine ⟨hevent, ?_⟩
      cases hjudged with
      | enter hopens hempty hfresh =>
          have hnothing : inside.TakenBy [] := fun key => by simp [hempty]
          rw [Level.ground_take] at ihrest
          exact ⟨⟨inside.ground, hopens, ihinner hinside hopens.declared hnothing hfitsInner⟩,
            ihrest hnext hground (htaken.take hlevel hfit) hfitsRest⟩
  | @drop level violation event rest hjudge hrest ih =>
      obtain ⟨⟨hclose, _, hfit⟩, hfitsRest⟩ := hfits
      have hevent := hholds hlevel hground htaken hclose hfit
      rw [hjudge] at hevent
      exact ⟨hevent, ih hlevel hground htaken hfitsRest⟩
  | @prune level violation opening inside rest hjudge hrest ih =>
      obtain ⟨hfit, ⟨opened, hopened, _⟩, hfitsRest⟩ := hfits
      have hevent := hholds hlevel hground htaken (Forest.ne_close_of_opens hopened) hfit
      rw [hjudge] at hevent
      exact ⟨hevent, ih hlevel hground htaken hfitsRest⟩

end Checker

namespace Schema.MarksDocument

variable {schema : Schema} {events : List Event} {marking : Marking}

theorem eachItem_of (h : schema.MarksDocument events marking) (hschema : schema.IsClosed)
    {holds : Ground → List Event → Event → Option Violation → Prop}
    (hholds : ∀ {level : Checker.Level} {scope : Scope} {earlier : List Event} {event : Event},
      level.scope? = some scope → level.ground.Declared schema → level.TakenBy earlier →
      event ≠ .close → event.fit? scope = some event →
      holds level.ground earlier event (Checker.judge schema level event).mark) :
    marking.EachItem schema holds .document [] :=
  h.marks.eachItem hschema hholds (by rfl) trivial (fun key => by simp [Checker.Level.taken])
    h.fits

/-- Each item of a document fares as the schema has it, where object types are declared as
far as they are named. -/
theorem eachItem (h : schema.MarksDocument events marking) (hschema : schema.IsClosed) :
    marking.EachItem schema (Fares schema) .document [] :=
  h.eachItem_of hschema fun hlevel hground htaken hclose hfit =>
    (Checker.judge_judged hschema hlevel hground hclose hfit).fares htaken

end Schema.MarksDocument

end Lookml
