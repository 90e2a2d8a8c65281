import EpubStyle.Proofs.Concrete.InlineStyles
import EpubStyle.Proofs.Concrete.Parts
import EpubStyle.Proofs.Concrete.SheetTrees
import EpubStyle.Proofs.Concrete.SignTexts

/-!
# Nothing is lost

A style that is read without a problem is delivered as a whole. `carriedText` is the text of its
tokens but for separators, and `Sign.texts` that of the signs of its events. They agree up to case
(`Spelled.folded_texts`).

So that no token changes place either, the tokens are cut into parts, one for each event and each
separator (`StyleSheet.parts`, `InlineStyle.parts`). The part of a declaration holds everything from
its name to its end, and the declaration is important if an `!important` stands there
(`Part.Accounted`).

`conservation` says both of the tokens that a reader is given, for either grammar. Nothing is asked
of them but the shape that a scanner gives their texts (`Token.Shaped`).
-/

set_option autoImplicit false

namespace EpubStyle

open Concrete Text

/-! ## The text of tokens -/

/-- The text of tokens without the separators. -/
def carriedText : List Token → String
  | [] => ""
  | t :: ts => (if TokenClass.separator t then "" else t.text) ++ carriedText ts

@[simp] theorem carriedText_append (ts us : List Token) :
    carriedText (ts ++ us) = carriedText ts ++ carriedText us := by
  induction ts with
  | nil => simp [carriedText]
  | cons t ts ih => simp [carriedText, ih, String.append_assoc]

/-- Tokens that are no separators are carried as they are. -/
theorem carriedText_eq_joinedText {ts : List Token}
    (h : ∀ t ∈ ts, TokenClass.separator t = false) : carriedText ts = joinedText ts := by
  induction ts with
  | nil => rfl
  | cons t ts ih =>
      simp [carriedText, joinedText, h t (List.mem_cons_self ..),
        ih (fun u hu => h u (List.mem_cons_of_mem _ hu))]

/-- **Tokens that spell signs have their text**, up to case. -/
theorem Spelled.folded_texts {xs : List Sign} {ts : List Token} (h : Spelled .separator xs ts)
    (hshape : ∀ t ∈ ts, t.Shaped) : folded (carriedText ts) = folded (Sign.texts xs) := by
  induction h with
  | nil => rfl
  | separator t ht rest ih =>
      simp [carriedText, ht, ih (fun u hu => hshape u (List.mem_cons_of_mem _ hu))]
  | sign hx rest ih =>
      simp [Sign.texts, carriedText_eq_joinedText hx.not_separator,
        hx.folded_joinedText (fun u hu => hshape u (List.mem_append_left _ hu)),
        ih (fun u hu => hshape u (List.mem_append_right _ hu))]

/-! ## Every style -/

/-- What is read without a problem delivers events that account for its tokens. -/
theorem exists_events_of_flawless (g : Grammar) {ts : List Token} (hshape : ∀ t ∈ ts, t.Shaped)
    (hflawless : Signal.Flawless (g.signals ts)) :
    ∃ events parts, g.signals ts = events.map Signal.event ∧
      Spelled .separator (eventSigns [] events) ts ∧ Part.Cut ts events parts := by
  cases g with
  | sheet =>
      obtain ⟨s, rfl⟩ := exists_styleSheet_of_flawless (fun t ht => (hshape t ht).char) hflawless
      obtain ⟨parts, hparts⟩ := s.exists_cut
      exact ⟨s.events, parts, s.signals_tokens, s.spelled, hparts⟩
  | styleAttribute =>
      obtain ⟨s, rfl⟩ := exists_inlineStyle_of_flawless hflawless
      obtain ⟨parts, hparts⟩ := s.exists_cut
      exact ⟨s.events, parts, s.signals_tokens, s.spelled, hparts⟩

/-- **Nothing is lost.** Tokens that a grammar reads without a problem have the text of the events
that any handler receives, up to case and separators, and can be cut into parts that account for
each token in order. -/
theorem conservation (g : Grammar) {ts : List Token} (hshape : ∀ t ∈ ts, t.Shaped)
    (hflawless : Signal.Flawless (g.signals ts)) (h : Handler) (capacity : Nat) :
    ∃ events parts, deliver h capacity 0 (g.signals ts) = ⟨events, [], none⟩ ∧
      folded (carriedText ts) = folded (Sign.texts (eventSigns [] events)) ∧
      Part.Cut ts events parts := by
  obtain ⟨events, parts, hsignals, hspelled, hcut⟩ :=
    exists_events_of_flawless g hshape hflawless
  refine ⟨events, parts, ?_, hspelled.folded_texts hshape, hcut⟩
  rw [hsignals]
  exact deliver_events h capacity 0 events

/-- The tokens of an important declaration. -/
def importantDeclaration : List Token :=
  [⟨.ident, "b", .start, []⟩, ⟨.char, ":", .start, []⟩, ⟨.ident, "c", .start, []⟩,
    ⟨.important, "!important", .start, []⟩]

/-- An important declaration in a style attribute is accounted for. -/
theorem conservation_importantDeclaration :
    (∀ t ∈ importantDeclaration, t.Shaped) ∧
      Signal.Flawless (Grammar.styleAttribute.signals importantDeclaration) ∧
      ∃ events parts, deliver .strict 0 0 (Grammar.styleAttribute.signals importantDeclaration) =
          ⟨events, [], none⟩ ∧
        folded (carriedText importantDeclaration) =
          folded (Sign.texts (eventSigns [] events)) ∧
        Part.Cut importantDeclaration events parts := by
  have hshape : ∀ t ∈ importantDeclaration, t.Shaped := by
    intro t ht
    simp only [importantDeclaration, List.mem_cons, List.not_mem_nil, or_false] at ht
    rcases ht with rfl | rfl | rfl | rfl <;>
      exact ⟨by simp, by simp, by simp [MatchOperator.ofToken?, Token.isChar]⟩
  have hflawless : Signal.Flawless (Grammar.styleAttribute.signals importantDeclaration) := by
    intro p hp
    have hsignals : Grammar.styleAttribute.signals importantDeclaration =
        [.event .start,
          .event (.declaration ⟨lowerCase "b", [.atom .keyword "c" .start], true, .start⟩),
          .event .finish] := by
      rfl
    rw [hsignals] at hp
    simp at hp
  exact ⟨hshape, hflawless, conservation .styleAttribute hshape hflawless .strict 0⟩

end EpubStyle
