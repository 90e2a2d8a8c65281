import Mathlib.Data.List.Forall2
import EpubStyle.Proofs.Parse.Handlers

/-!
# Locales

A handler of problems gets them in the language of the parse: their arguments and their message are
text, and so are those of the faults that belong to the token to blame (`Problem.render`). A
`Listener` is a handler of such problems. It may look at their text, so the language of a parse
could in principle change all that follows the first problem.

It does not for a listener that takes no notice of the language (`Listener.Indifferent`): in any two
locales it receives the same events, and its states stay related (`Listener.Indifferent.parse`). The
handlers that come with the parser are of this kind, so what they collect are problems that are
alike one by one (`Handler.alike_parse`), and a scan gives alike tokens. Problems are alike if they
have the same code, location and token and differ at most in phrases and in the message.

What the parser collects is rendered when it is written out. That is the same as if each problem
had been rendered when it was reported (`Handler.parse_listener`).
-/

set_option autoImplicit false

namespace EpubStyle

/-! ## Problems in a language -/

/-- A fault in the language of a locale. -/
structure RenderedFault where
  code : Code
  location : Location
  arguments : List String
  message : String

/-- A token whose faults are in the language of a locale. -/
structure RenderedToken where
  kind : TokenKind
  text : String
  location : Location
  faults : List RenderedFault

/-- A problem in the language of a locale. -/
structure RenderedProblem extends RenderedFault where
  token : Option RenderedToken

/-- A fault in the language of a locale. -/
def Fault.render (locale : Locale) (f : Fault) : RenderedFault :=
  ⟨f.code, f.location, f.arguments.map (Wording.text locale), f.message locale⟩

/-- A token in the language of a locale. -/
def Token.render (locale : Locale) (t : Token) : RenderedToken :=
  ⟨t.kind, t.text, t.location, t.faults.map (Fault.render locale)⟩

/-- A problem in the language of a locale. -/
def Problem.render (locale : Locale) (p : Problem) : RenderedProblem :=
  ⟨p.toFault.render locale, p.token.map (Token.render locale)⟩

/-! ## Problems that are alike -/

section Alike

variable (l l' : Locale)

/-- Texts of one argument in two languages: only phrases and the word between two alternatives
differ. -/
inductive AlikeArgument : String → String → Prop
  | verbatim (text : String) : AlikeArgument text text
  | phrase (p : Phrase) : AlikeArgument (p.text l) (p.text l')
  | either (a b : String) : AlikeArgument (eitherText l a b) (eitherText l' a b)

/-- Renderings of one fault in two languages. -/
structure RenderedFault.Alike (f f' : RenderedFault) : Prop where
  code : f.code = f'.code
  location : f.location = f'.location
  arguments : List.Forall₂ (AlikeArgument l l') f.arguments f'.arguments
  message : f.message = f.code.message l f.arguments
  message' : f'.message = f.code.message l' f'.arguments

/-- Renderings of one token in two languages. -/
structure RenderedToken.Alike (t t' : RenderedToken) : Prop where
  kind : t.kind = t'.kind
  text : t.text = t'.text
  location : t.location = t'.location
  faults : List.Forall₂ (RenderedFault.Alike l l') t.faults t'.faults

/-- Renderings of one problem in two languages. -/
structure RenderedProblem.Alike (p p' : RenderedProblem) : Prop where
  fault : p.toRenderedFault.Alike l l' p'.toRenderedFault
  token : Option.Rel (RenderedToken.Alike l l') p.token p'.token

theorem Wording.alike_text (w : Wording) : AlikeArgument l l' (w.text l) (w.text l') := by
  cases w with
  | verbatim text => exact .verbatim text
  | phrase p => exact .phrase p
  | either a b => exact .either a b

/-- Renderings of all members of a list. -/
theorem forall₂_map {α β γ : Type} {R : β → γ → Prop} {f : α → β} {g : α → γ}
    (h : ∀ a, R (f a) (g a)) (as : List α) : List.Forall₂ R (as.map f) (as.map g) := by
  rw [List.forall₂_map_left_iff, List.forall₂_map_right_iff, List.forall₂_same]
  exact fun a _ => h a

theorem Fault.alike_render (f : Fault) : (f.render l).Alike l l' (f.render l') where
  code := rfl
  location := rfl
  arguments := forall₂_map (Wording.alike_text l l') f.arguments
  message := rfl
  message' := rfl

theorem Token.alike_render (t : Token) : (t.render l).Alike l l' (t.render l') where
  kind := rfl
  text := rfl
  location := rfl
  faults := forall₂_map (Fault.alike_render l l') t.faults

theorem Problem.alike_render (p : Problem) : (p.render l).Alike l l' (p.render l') where
  fault := p.toFault.alike_render l l'
  token := by
    simp only [Problem.render]
    cases p.token with
    | none => exact .none
    | some t => exact .some (t.alike_render l l')

end Alike

/-- The argument that is text of the style sheet is the same in every language, the phrase is
not. -/
example : ((Problem.expecting ⟨.char, ";", .start, []⟩ (.phrase .propertyName)).render
    .french).arguments = [";", "un nom de propriété"] := rfl

/-! ## Listeners -/

/-- A handler of rendered problems with states of its own. It gives up if it returns a problem, the
same or another one. -/
structure Listener (σ : Type) where
  hear : σ → RenderedProblem → σ × Option RenderedProblem

/-- Why a listener did not receive all. -/
inductive Stop where
  | gaveUp (p : RenderedProblem)
  /-- Something that has no language. -/
  | failed (f : Failure)

/-- A failure in the language of a locale. -/
def Failure.render (locale : Locale) : Failure → Stop
  | aborted p => .gaveUp (p.render locale)
  | io message => .failed (.io message)
  | markup fault => .failed (.markup fault)
  | tooLarge size limit => .failed (.tooLarge size limit)
  | overrun distance capacity => .failed (.overrun distance capacity)

/-- What a listener received, with its last state. -/
structure Transcript (σ : Type) where
  events : List Event
  state : σ
  stop : Option Stop

namespace Listener

variable {σ : Type}

/-- Hand signals to a listener in the state `state`, problems in the language of a locale. -/
def attend (h : Listener σ) (locale : Locale) (capacity : Nat) (state : σ) :
    List Signal → Transcript σ
  | [] => ⟨[], state, none⟩
  | .event e :: signals =>
      let r := h.attend locale capacity state signals
      { r with events := e :: r.events }
  | .problem p :: signals =>
      match h.hear state (p.render locale) with
      | (state', none) => h.attend locale capacity state' signals
      | (state', some q) => ⟨[], state', some (.gaveUp q)⟩
  | .stepBack distance :: signals =>
      if distance ≤ capacity then h.attend locale capacity state signals
      else ⟨[], state, some (.failed (.overrun distance capacity))⟩

/-- Parse a text by a grammar, with a listener. -/
def parse (h : Listener σ) (state : σ) (o : ParseOptions) (g : Grammar) (text source : String) :
    Transcript σ :=
  match o.sizeFailure? text.utf8ByteSize with
  | some failure => ⟨[], state, some (failure.render o.locale)⟩
  | none => h.attend o.locale o.capacity state (parseSignals g text source)

/-- The tokens of a text, and what a listener received while they were scanned. -/
def scan (h : Listener σ) (state : σ) (o : ParseOptions) (text source : String) :
    List RenderedToken × Transcript σ :=
  match o.sizeFailure? text.utf8ByteSize with
  | some failure => ([], ⟨[], state, some (failure.render o.locale)⟩)
  | none =>
      let tokens := EpubStyle.scan text source
      (tokens.map (fun t => t.token.render o.locale),
        h.attend o.locale o.capacity state (scanSignals tokens))

end Listener

/-! ## Listeners that take no notice of the language -/

section Indifference

variable (l l' : Locale)

/-- Stops of two runs in two languages. -/
inductive Stop.Alike : Stop → Stop → Prop
  | gaveUp {p p' : RenderedProblem} (h : p.Alike l l' p') : Alike (.gaveUp p) (.gaveUp p')
  | failed (f : Failure) : Alike (.failed f) (.failed f)

theorem Failure.alike_render (f : Failure) : Stop.Alike l l' (f.render l) (f.render l') := by
  cases f with
  | aborted p => exact .gaveUp (p.alike_render l l')
  | io | markup | tooLarge | overrun => exact .failed _

variable {σ σ' : Type}

/-- Two runs in two languages: the same events, related states, and stops that are alike. -/
structure Transcript.Alike (R : σ → σ' → Prop) (r : Transcript σ) (r' : Transcript σ') : Prop where
  events : r.events = r'.events
  state : R r.state r'.state
  stop : Option.Rel (Stop.Alike l l') r.stop r'.stop

/-- In related states two listeners go to related states at problems that are alike, and both go on
or both give up at problems that are alike. -/
structure Listener.Indifferent (h : Listener σ) (h' : Listener σ') (R : σ → σ' → Prop) : Prop where
  state : ∀ {s s' p p'}, R s s' → p.Alike l l' p' → R (h.hear s p).1 (h'.hear s' p').1
  answer : ∀ {s s' p p'}, R s s' → p.Alike l l' p' →
    Option.Rel (RenderedProblem.Alike l l') (h.hear s p).2 (h'.hear s' p').2

namespace Listener.Indifferent

variable {l l'} {h : Listener σ} {h' : Listener σ'} {R : σ → σ' → Prop}

/-- **The language of problems makes no difference to what is received**, signal by signal. -/
theorem attend (hh : h.Indifferent l l' h' R) (capacity : Nat) {state : σ} {state' : σ'}
    (hstate : R state state') (signals : List Signal) :
    (h.attend l capacity state signals).Alike l l' R (h'.attend l' capacity state' signals) := by
  induction signals generalizing state state' with
  | nil => exact ⟨rfl, hstate, .none⟩
  | cons s signals ih =>
      cases s with
      | event e =>
          have hrest := ih hstate
          exact ⟨congrArg (List.cons e) hrest.events, hrest.state, hrest.stop⟩
      | problem p =>
          -- Both listeners hear of the problem, each in its own language.
          have hnext := hh.state hstate (p.alike_render l l')
          have hanswer := hh.answer hstate (p.alike_render l l')
          simp only [Listener.attend]
          generalize h.hear state (p.render l) = heard at hnext hanswer
          generalize h'.hear state' (p.render l') = heard' at hnext hanswer
          obtain ⟨s, answer⟩ := heard
          obtain ⟨s', answer'⟩ := heard'
          cases hanswer with
          | none => exact ih hnext
          | some hgaveUp => exact ⟨rfl, hnext, .some (.gaveUp hgaveUp)⟩
      | stepBack distance =>
          simp only [Listener.attend]
          split
          · exact ih hstate
          · exact ⟨rfl, hstate, .some (.failed _)⟩

/-- **The language of a parse makes no difference** to a listener that takes no notice of it. -/
theorem parse (hh : h.Indifferent l l' h' R) (o : ParseOptions) (g : Grammar)
    (text source : String) {state : σ} {state' : σ'} (hstate : R state state') :
    (h.parse state { o with locale := l } g text source).Alike l l' R
      (h'.parse state' { o with locale := l' } g text source) := by
  have hsize : ∀ locale, ParseOptions.sizeFailure? { o with locale := locale } text.utf8ByteSize =
      o.sizeFailure? text.utf8ByteSize := fun _ => rfl
  simp only [Listener.parse, hsize]
  cases o.sizeFailure? text.utf8ByteSize with
  | some failure => exact ⟨rfl, hstate, .some (failure.alike_render l l')⟩
  | none => exact hh.attend o.capacity hstate _

theorem scan (hh : h.Indifferent l l' h' R) (o : ParseOptions) (text source : String)
    {state : σ} {state' : σ'} (hstate : R state state') :
    List.Forall₂ (RenderedToken.Alike l l')
        (h.scan state { o with locale := l } text source).1
        (h'.scan state' { o with locale := l' } text source).1 ∧
      (h.scan state { o with locale := l } text source).2.Alike l l' R
        (h'.scan state' { o with locale := l' } text source).2 := by
  have hsize : ∀ locale, ParseOptions.sizeFailure? { o with locale := locale } text.utf8ByteSize =
      o.sizeFailure? text.utf8ByteSize := fun _ => rfl
  simp only [Listener.scan, hsize]
  cases o.sizeFailure? text.utf8ByteSize with
  | some failure => exact ⟨.nil, rfl, hstate, .some (failure.alike_render l l')⟩
  | none =>
      exact ⟨forall₂_map (fun t => t.token.alike_render l l') _, hh.attend o.capacity hstate _⟩

end Listener.Indifferent

end Indifference

/-! ## The handlers of the parser -/

namespace Handler

/-- The handlers that come with the parser. Their states are the problems collected. -/
def listener (h : Handler) : Listener (List RenderedProblem) where
  hear collected p :=
    match h.respond collected.length with
    | .collect => (collected ++ [p], none)
    | .drop => (collected, none)
    | .giveUp => (collected, some p)

theorem indifferent_listener (h : Handler) (l l' : Locale) :
    h.listener.Indifferent l l' h.listener (List.Forall₂ (RenderedProblem.Alike l l')) := by
  -- What a handler does depends on the number of problems collected, which is the same in both.
  constructor
  · intro s s' p p' hs hp
    simp only [listener, hs.length_eq]
    cases h.respond s'.length with
    | collect => exact List.rel_append hs (.cons hp .nil)
    | drop | giveUp => exact hs
  · intro s s' p p' hs hp
    simp only [listener, hs.length_eq]
    cases h.respond s'.length with
    | collect | drop => exact .none
    | giveUp => exact .some hp

/-- What a handler collects may be rendered when all is over. -/
theorem attend_listener (h : Handler) (locale : Locale) (capacity : Nat)
    (collected : List Problem) (signals : List Signal) :
    h.listener.attend locale capacity (collected.map (Problem.render locale)) signals =
      { events := (deliver h capacity collected.length signals).events
        state := (collected ++ (deliver h capacity collected.length signals).problems).map
          (Problem.render locale)
        stop := (deliver h capacity collected.length signals).failure.map
          (Failure.render locale) } := by
  -- The problems collected before stay in front of those that a delivery adds.
  induction signals generalizing collected with
  | nil => simp [Listener.attend, deliver, Delivery.empty]
  | cons s signals ih =>
      cases s with
      | event e => simp only [Listener.attend, deliver, ih]
      | problem p =>
          simp only [Listener.attend, deliver, listener, List.length_map]
          cases h.respond collected.length with
          | collect =>
              have hcollected := ih (collected ++ [p])
              rw [List.length_append, List.length_singleton, List.map_append] at hcollected
              simp only [listener, List.map_cons, List.map_nil] at hcollected
              simp [hcollected]
          | drop => exact ih collected
          | giveUp => simp [Delivery.failed, Failure.render]
      | stepBack distance =>
          simp only [Listener.attend, deliver]
          split
          · exact ih collected
          · simp [Delivery.failed, Failure.render]

/-- **A parse renders what it has collected as it was reported.** -/
theorem parse_listener (h : Handler) (o : ParseOptions) (g : Grammar) (text source : String) :
    h.listener.parse [] o g text source =
      { events := (parseText o h g text source).events
        state := (parseText o h g text source).problems.map (Problem.render o.locale)
        stop := (parseText o h g text source).failure.map (Failure.render o.locale) } := by
  simp only [Listener.parse, parseText, parseAny]
  cases o.sizeFailure? text.utf8ByteSize with
  | some failure => rfl
  | none => exact h.attend_listener o.locale o.capacity [] _

/-- **The locale only affects messages.** Whatever the text, the grammar and the handler, parses in
two languages deliver the same events and collect problems that are alike one by one: with the same
codes and locations and the same tokens to blame, and with arguments that differ only in phrases.
Scans give the same tokens with faults that are alike one by one. -/
theorem alike_parse (h : Handler) (o : ParseOptions) (g : Grammar) (text source : String)
    (l l' : Locale) :
    (h.listener.parse [] { o with locale := l } g text source).Alike l l'
        (List.Forall₂ (RenderedProblem.Alike l l'))
        (h.listener.parse [] { o with locale := l' } g text source) ∧
      List.Forall₂ (RenderedToken.Alike l l')
        (h.listener.scan [] { o with locale := l } text source).1
        (h.listener.scan [] { o with locale := l' } text source).1 ∧
      (h.listener.scan [] { o with locale := l } text source).2.Alike l l'
        (List.Forall₂ (RenderedProblem.Alike l l'))
        (h.listener.scan [] { o with locale := l' } text source).2 :=
  have hindifferent := h.indifferent_listener l l'
  ⟨hindifferent.parse o g text source .nil, hindifferent.scan o text source .nil⟩

end Handler

end EpubStyle
