import Lookml.Proofs.Event.ReadBack
import Lookml.Proofs.Reader.Reads
import Lookml.Proofs.Reader.Sound
import Lookml.Proofs.Writer.Step

/-!
Reading the text of one item. What is read behind an item does not depend on it, so each
lemma adds a piece of text in front of a rest that is read already. Words and numerals
need a rest that ends them, and a comment a rest that starts with a line end.
-/

namespace Lookml

/-- A layout whose texts can be read back: strings are quoted, and lines are indented by
blanks. -/
structure Layout.IsPlain (layout : Layout) : Prop where
  quoted : layout.bareStrings = false
  blank : IsBlanks layout.indent.toList

namespace Layout

theorem IsPlain.of_blanks {layout : Layout} (hbare : layout.bareStrings = false)
    (hindent : ∀ c ∈ layout.indent.toList, c = ' ' ∨ c = '\t') : layout.IsPlain := by
  refine ⟨hbare, .of_gaps fun c hc => ?_⟩
  rcases hindent c hc with rfl | rfl <;> rfl

theorem isBlanks_gap (layout : Layout) : IsBlanks layout.gap.toList := by
  unfold gap
  split
  · exact .gap rfl .nil
  · exact .nil

theorem toList_newLine (layout : Layout) (depth : Nat) :
    (layout.newLine depth).toList =
      '\n' :: (List.replicate depth layout.indent).flatMap String.toList := by
  rw [newLine, String.toList_join]
  rfl

theorem IsPlain.isBlanks_newLine {layout : Layout} (h : layout.IsPlain) (depth : Nat) :
    IsBlanks (layout.newLine depth).toList := by
  rw [toList_newLine]
  refine .gap rfl ?_
  induction depth with
  | zero => exact .nil
  | succ depth ih =>
      rw [List.replicate_succ, List.flatMap_cons]
      exact h.blank.append ih

theorem endsLine_newLine (layout : Layout) (depth : Nat) (rest : List Char) :
    EndsLine ((layout.newLine depth).toList ++ rest) := by
  intro c hc
  rw [toList_newLine] at hc
  obtain rfl := Option.some.inj hc
  rfl

end Layout

theorem EndsLine.isBreak {rest : List Char} (h : EndsLine rest) : IsBreak rest := by
  intro c hc
  have hline := h c hc
  simp only [Token.isLineEnd, Bool.or_eq_true, beq_iff_eq] at hline
  rcases hline with rfl | rfl <;> rfl

namespace Reader

section Items
variable {code : Names} {layout : Layout} {opened : List Opened} {rest : List Char}
  {events : List Event}

theorem Reads.comma (h : Reads code ⟨opened, between opened⟩ rest events) :
    Reads code ⟨opened, between opened⟩ (',' :: rest) events := by
  refine .onward (between_ne_code opened) (Lexeme.next_comma rest) fun span =>
    ⟨[], _, events, ?_, h, rfl⟩
  unfold between
  split <;> rfl

theorem Reads.comment {text : List Char} (hline : IsLine text) (hrest : EndsLine rest)
    (h : Reads code ⟨opened, between opened⟩ rest events) :
    Reads code ⟨opened, between opened⟩ ('#' :: (text ++ rest))
      (.comment (String.ofList text) :: events) := by
  refine .onward (between_ne_code opened) (Lexeme.next_comment hline hrest) fun span =>
    ⟨[.comment (String.ofList text)], _, events, ?_, h, rfl⟩
  unfold between
  split <;> rfl

theorem next_spellQuoted (text : String) (rest : List Char) :
    Lexeme.next ((Layout.quote text).toList ++ rest) = (.quoted text, rest) := by
  have hquoted := Lexeme.next_quoted text.toList rest
  rw [String.ofList_toList] at hquoted
  rw [Layout.quote, String.toList_ofList, List.cons_append, List.append_assoc]
  exact hquoted

theorem next_spellWord {word : String} (hword : isWord word.toList = true) (hrest : IsBreak rest) :
    Lexeme.next (word.toList ++ rest) = (.word word, rest) := by
  have hnext := Lexeme.next_word hword hrest
  rwa [String.ofList_toList] at hnext

theorem next_spellNumber {value : Number} (hfinite : value.IsFinite) (hrest : IsBreak rest) :
    Lexeme.next (value.toText.toList ++ rest) = (.number value.readBack, rest) := by
  obtain ⟨numeral, hdecimal, htext, hnumber⟩ := Number.exists_text hfinite
  rw [Number.toText, String.toList_ofList, htext, Lexeme.next_numeral hdecimal.isLiteral hrest,
    hnumber]

theorem wordEvent_of_isBareWord {name : Option String} {word : String}
    (h : isBareWord word.toList = true) : wordEvent name word = .identifier name word := by
  rw [isBareWord, Bool.and_eq_true, Option.isNone_iff_eq_none] at h
  rw [wordEvent, h.2]

theorem wordEvent_wordOfTruth (name : Option String) (value : Bool) :
    wordEvent name (wordOfTruth value) = .truth name value := by
  rw [wordEvent, truthOfWord?_wordOfTruth]

theorem isWord_wordOfTruth (value : Bool) : isWord (wordOfTruth value).toList = true := by
  cases value <;> decide

theorem Reads.key {name : String}
    (h : ∀ span, Reads code ⟨opened, if code.contains name then .code name else .value name span⟩
      rest events) :
    Reads code ⟨opened, .member⟩ ((Layout.spellName name).toList ++ ':' :: rest) events := by
  have hcolon (span : Span) : Reads code ⟨opened, .colon name span⟩ (':' :: rest) events :=
    .onward (by simp) (Lexeme.next_colon rest) fun _ => ⟨[], _, events, rfl, h span, rfl⟩
  unfold Layout.spellName
  split
  · rename_i hbare
    have hbreak : IsBreak (':' :: rest) := isBreak_cons (by decide)
    exact .onward (by simp) (next_spellWord (isWord_of_isBareWord hbare) hbreak) fun span =>
      ⟨[], _, events, rfl, hcolon span, rfl⟩
  · exact .onward (by simp) (next_spellQuoted name _) fun span =>
      ⟨[], _, events, rfl, hcolon span, rfl⟩

theorem Reads.spelledCode (layout : Layout) {name text : String} (htext : IsCode text.toList)
    (h : Reads code ⟨opened, .member⟩ rest events) :
    Reads code ⟨opened, .code name⟩
      (layout.gap.toList ++ ((Layout.spellCode text).toList ++ rest))
      (.code name text :: events) := by
  have hspell : (Layout.spellCode text).toList ++ rest =
      text.toList ++ ' ' :: ';' :: ';' :: rest := by
    simp [Layout.spellCode]
  have hnone : Token.splitCode text.toList = none := Token.splitCode_eq_none.mpr htext.2
  have htrim : trimBlank (text.toList ++ [' ']) = text.toList := by
    rw [trimBlank_concat (by decide), htext.1]
  have hsplit := Token.splitCode_append_mark hnone rest
  rw [hspell, Layout.gap]
  split
  · have hsplit' : Token.splitCode (' ' :: (text.toList ++ ' ' :: ';' :: ';' :: rest)) =
        some (' ' :: (text.toList ++ [' ']), rest) := by
      rw [Token.splitCode]
      · rw [hsplit]
        rfl
      · exact fun _ hmark _ => absurd hmark (by decide)
    have hread : Reads code ⟨opened, .code name⟩ _ _ := Reads.codeBlock hsplit' h
    rwa [trimBlank_cons (by decide), htrim, String.ofList_toList] at hread
  · have hread : Reads code ⟨opened, .code name⟩ _ _ := Reads.codeBlock hsplit h
    rwa [htrim, String.ofList_toList] at hread

theorem Reads.named (layout : Layout) {name instanceName : String} {span : Span}
    (hinstance : isWord instanceName.toList = true) (hroom : opened.length < maxDepth)
    (hlater : ∀ span, Reads code ⟨⟨.object, span⟩ :: opened, .member⟩ rest events) :
    Reads code ⟨opened, .value name span⟩
      ((layout.spell (.named name instanceName)).toList ++ rest)
      (.named name instanceName :: events) := by
  have hbrace (place : Span) :
      Reads code ⟨opened, .afterWord name instanceName place []⟩ ('{' :: rest)
        (.named name instanceName :: events) :=
    .onward (by simp) (Lexeme.next_openBrace rest) fun _ =>
      ⟨_, _, _, enter_of_lt hroom, hlater place, rfl⟩
  have hspell : (layout.spell (.named name instanceName)).toList ++ rest =
      instanceName.toList ++ (layout.gap.toList ++ '{' :: rest) := by
    simp [Layout.spell]
  have hbreak : IsBreak (layout.gap.toList ++ '{' :: rest) := by
    unfold Layout.gap
    split <;> exact isBreak_cons (by decide)
  rw [hspell]
  exact .onward (by simp) (next_spellWord hinstance hbreak) fun place =>
    ⟨[], _, _, rfl, (hbrace place).blanks (by simp) layout.isBlanks_gap, rfl⟩

theorem Reads.pair (layout : Layout) {reference text : String}
    (hreference : isWord reference.toList = true)
    (hlater : Reads code ⟨opened, .element⟩ rest events) :
    Reads code ⟨opened, .element⟩ ((layout.spell (.pair reference text)).toList ++ rest)
      (.pair reference text :: events) := by
  have hquoted : Reads code ⟨opened, .pairText reference⟩
      ((Layout.quote text).toList ++ rest) (.pair reference text :: events) :=
    .onward (by simp) (next_spellQuoted text rest) fun _ => ⟨_, _, _, rfl, hlater, rfl⟩
  have hcolon : Reads code ⟨opened, .afterElementWord reference []⟩
      (':' :: (layout.gap.toList ++ ((Layout.quote text).toList ++ rest)))
      (.pair reference text :: events) :=
    .onward (by simp) (Lexeme.next_colon _) fun _ =>
      ⟨[], _, _, rfl, hquoted.blanks (by simp) layout.isBlanks_gap, rfl⟩
  have hspell : (layout.spell (.pair reference text)).toList ++ rest =
      reference.toList ++
        ':' :: (layout.gap.toList ++ ((Layout.quote text).toList ++ rest)) := by
    simp [Layout.spell, Layout.spellPair]
  rw [hspell]
  exact .onward (by simp) (next_spellWord hreference (isBreak_cons (by decide))) fun _ =>
    ⟨[], _, _, rfl, hcolon, rfl⟩

section Values
variable {event : Event} (hfinite : event.IsFinite) (hplain : layout.IsPlain)
  (hbreak : event.opens? = none → IsBreak rest)
  (hroom : ∀ scope, event.opens? = some scope → opened.length < maxDepth)
  (hlater : ∀ opened', scopesOf opened' = (scopesOf opened).after event →
    Reads code ⟨opened', between opened'⟩ rest events)
include hfinite hplain hbreak hroom hlater

theorem Reads.value {name : String} (hobject : (scopesOf opened).current = .object)
    (hname : Draft.nameOf event = some name) (hcode : code.contains name = false)
    (hspelled : event.Spelled code) (span : Span) :
    Reads code ⟨opened, .value name span⟩ ((layout.spell event).toList ++ rest)
      (event.readBack :: events) := by
  have hrest (hafter : (scopesOf opened).after event = scopesOf opened) :
      Reads code ⟨opened, .member⟩ rest events :=
    between_of_object hobject ▸ hlater opened hafter.symm
  cases event with
  | number name' value =>
      obtain rfl := hname
      exact .onward (by simp) (next_spellNumber hfinite (hbreak rfl)) fun _ =>
        ⟨_, _, _, rfl, hrest rfl, rfl⟩
  | truth name' value =>
      obtain rfl := hname
      refine .onward (by simp) (next_spellWord (isWord_wordOfTruth value) (hbreak rfl)) fun _ =>
        ⟨_, _, _, rfl, (hrest rfl).afterWord, ?_⟩
      exact congrArg (· :: events) (wordEvent_wordOfTruth _ value)
  | string name' text =>
      obtain rfl := hname
      rw [Layout.spell, Layout.spellString, hplain.quoted]
      exact .onward (by simp) (next_spellQuoted text rest) fun _ => ⟨_, _, _, rfl, hrest rfl, rfl⟩
  | identifier name' text =>
      obtain rfl := hname
      refine .onward (by simp) (next_spellWord (isWord_of_isBareWord hspelled.2) (hbreak rfl))
        fun _ => ⟨_, _, _, rfl, (hrest rfl).afterWord, ?_⟩
      exact congrArg (· :: events) (wordEvent_of_isBareWord hspelled.2)
  | list name' =>
      obtain rfl := hname
      rw [Layout.toList_spell_list]
      exact .onward (by simp) (Lexeme.next_openBracket rest) fun span =>
        ⟨_, _, _, enter_of_lt (hroom _ rfl), hlater (⟨.list, span⟩ :: opened) rfl, rfl⟩
  | object name' =>
      obtain rfl := Option.some.inj hname
      rw [Layout.toList_spell_object]
      exact .onward (by simp) (Lexeme.next_openBrace rest) fun span =>
        ⟨_, _, _, enter_of_lt (hroom _ rfl), hlater (⟨.object, span⟩ :: opened) rfl, rfl⟩
  | named name' instanceName =>
      obtain rfl := Option.some.inj hname
      exact .named layout hspelled.2 (hroom _ rfl) fun span =>
        hlater (⟨.object, span⟩ :: opened) rfl
  | code name' text =>
      obtain rfl := Option.some.inj hname
      rw [hspelled.1] at hcode
      cases hcode
  | pair reference text => cases hname
  | comment text => cases hname
  | close => cases hname

theorem Reads.element (hlist : (scopesOf opened).current = .list)
    (htakes : (scopesOf opened).Takes event) (hclose : event ≠ .close)
    (hcomment : event.isComment = false) (hspelled : event.Spelled code) :
    Reads code ⟨opened, .element⟩ ((layout.spell event).toList ++ rest)
      (event.readBack :: events) := by
  have hrest (hafter : (scopesOf opened).after event = scopesOf opened) :
      Reads code ⟨opened, .element⟩ rest events :=
    between_of_list hlist ▸ hlater opened hafter.symm
  have hfit := htakes.2
  rw [hlist] at hfit
  cases event with
  | number name value =>
      obtain ⟨rfl, -⟩ := Event.number.inj (Option.some.inj hfit)
      exact .onward (by simp) (next_spellNumber hfinite (hbreak rfl)) fun _ =>
        ⟨_, _, _, rfl, hrest rfl, rfl⟩
  | truth name value =>
      obtain ⟨rfl, -⟩ := Event.truth.inj (Option.some.inj hfit)
      refine .onward (by simp) (next_spellWord (isWord_wordOfTruth value) (hbreak rfl)) fun _ =>
        ⟨_, _, _, rfl, (hrest rfl).afterElementWord, ?_⟩
      exact congrArg (· :: events) (wordEvent_wordOfTruth _ value)
  | string name text =>
      obtain ⟨rfl, -⟩ := Event.string.inj (Option.some.inj hfit)
      rw [Layout.spell, Layout.spellString, hplain.quoted]
      exact .onward (by simp) (next_spellQuoted text rest) fun _ => ⟨_, _, _, rfl, hrest rfl, rfl⟩
  | identifier name text =>
      obtain ⟨rfl, -⟩ := Event.identifier.inj (Option.some.inj hfit)
      refine .onward (by simp) (next_spellWord (isWord_of_isBareWord hspelled.2) (hbreak rfl))
        fun _ => ⟨_, _, _, rfl, (hrest rfl).afterElementWord, ?_⟩
      exact congrArg (· :: events) (wordEvent_of_isBareWord hspelled.2)
  | pair reference text => exact .pair layout hspelled (hrest rfl)
  | list name =>
      obtain rfl := Event.list.inj (Option.some.inj hfit)
      rw [Layout.toList_spell_list]
      exact .onward (by simp) (Lexeme.next_openBracket rest) fun span =>
        ⟨_, _, _, enter_of_lt (hroom _ rfl), hlater (⟨.list, span⟩ :: opened) rfl, rfl⟩
  | comment text => cases hcomment
  | close => exact absurd rfl hclose
  | code name text => cases hfit
  | object name => cases hfit
  | named name instanceName => cases hfit

end Values

end Items

end Reader

end Lookml
