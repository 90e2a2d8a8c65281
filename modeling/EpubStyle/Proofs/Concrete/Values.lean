import EpubStyle.Proofs.Concrete.Tokens

/-!
# Values as they are written

Trees that hold the tokens of values in order, and what a reader makes of them. `Values` is a list
of values in the making: separators, single tokens that are values, and functions and groups with
the values inside. `Values.tokens` are its tokens and `Values.latest` the constructs, latest first.
A tree can only be built from tokens that fit, so each one is well formed. Lists of values can be
put together, with white space behind them and with more separators between them.

A `Reader` is the part of the grammar that builds a list of values: the values that are finished and
a function or group that may be open. Its two theorems are converse to each other:

* `Reader.feed_tokens`: the tokens of a list of values are read as its constructs;
* `Reader.exists_values_of_feed`: tokens that are read as values, with nothing open at the end, are
  the tokens of a list of these values.
-/

set_option autoImplicit false

namespace EpubStyle

/-! ## Broad places -/

/-- The places that take every value. -/
def Context.Broad (context : Context) : Prop :=
  context ∈ [functionArgument, propertyValue, atRuleParameter]

/-- Broad places take single tokens. -/
theorem Context.permits_atom {context : Context} (h : context.Broad) {t : Token} {c : Construct}
    (ht : t.valueStart = .atom c) : context.permits c = true := by
  simp only [Broad, List.mem_cons, List.not_mem_nil, or_false] at h
  rcases Token.eq_of_valueStart_atom ht with ⟨_, rfl⟩ | ⟨_, rfl⟩
  all_goals rcases h with rfl | rfl | rfl <;> rfl

/-- Broad places take functions and groups. -/
theorem Context.permits_close {context : Context} (h : context.Broad) (f : Frame) :
    context.permits f.close = true := by
  simp only [Broad, List.mem_cons, List.not_mem_nil, or_false] at h
  rcases f with ⟨opening, location, members⟩
  cases opening <;> rcases h with rfl | rfl | rfl <;> rfl

theorem Nesting.memberContext_broad {context : Context} (h : context.Broad) (n : Nesting) :
    (n.memberContext context).Broad := by
  simp only [memberContext]
  split
  · exact h
  · simp [Context.Broad]

namespace Concrete

/-! ## Trees -/

/-- A list of values with separators of the class `filler`, none of which is a single token of the
class `stop`. Inside functions and groups only white space and comments separate. -/
inductive Values : TokenClass → TokenClass → Type
  | nil {filler stop : TokenClass} : Values filler stop
  | filler {filler stop : TokenClass} (before : Values filler stop) (t : Token)
      (fits : filler t = true) : Values filler stop
  | atom {filler stop : TokenClass} (before : Values filler stop) (t : Token) (c : Construct)
      (fits : t.valueStart = .atom c) (goes : stop t = false) : Values filler stop
  | nested {filler stop : TokenClass} (before : Values filler stop) (t : Token) (o : Opening)
      (fits : t.valueStart = o.toStart) (members : Values Token.isBlank o.closes)
      (closer : Mark o.closer) : Values filler stop

namespace Values

/-- The tokens of a list of values. -/
def tokens {filler stop : TokenClass} : Values filler stop → List Token
  | nil => []
  | Values.filler before t _ => before.tokens ++ [t]
  | atom before t _ _ _ => before.tokens ++ [t]
  | nested before t _ _ members closer => before.tokens ++ t :: (members.tokens ++ [closer.1])

/-- The values of a list, latest first. -/
def latest {filler stop : TokenClass} : Values filler stop → List Construct
  | nil => []
  | Values.filler before _ _ => before.latest
  | atom before _ c _ _ => c :: before.latest
  | nested before t o _ members _ =>
      Frame.close ⟨o, t.location, members.latest⟩ :: before.latest

end Values

/-! ## Lists of values put together -/

namespace Values

variable {filler stop : TokenClass}

/-- Two lists of values are one. -/
theorem exists_append (v w : Values filler stop) :
    ∃ x : Values filler stop,
      x.tokens = v.tokens ++ w.tokens ∧ x.latest = w.latest ++ v.latest := by
  induction w with
  | nil => exact ⟨v, by simp [tokens], rfl⟩
  | filler before t fits ih =>
      obtain ⟨x, htokens, hlatest⟩ := ih v
      exact ⟨.filler x t fits, by simp [tokens, htokens], hlatest⟩
  | atom before t c fits goes ih =>
      obtain ⟨x, htokens, hlatest⟩ := ih v
      exact ⟨.atom x t c fits goes, by simp [tokens, htokens], by simp [latest, hlatest]⟩
  | nested before t o fits members closer ih _ =>
      obtain ⟨x, htokens, hlatest⟩ := ih v
      exact ⟨.nested x t o fits members closer, by simp [tokens, htokens],
        by simp [latest, hlatest]⟩

/-- White space is a list of no values. -/
theorem exists_gap (stop : TokenClass)
    (hfiller : ∀ t : Token, t.isBlank = true → filler t = true) (g : Gap) :
    ∃ v : Values filler stop, v.tokens = g.1 ∧ v.latest = [] := by
  obtain ⟨ts, hblank⟩ := g
  induction ts with
  | nil => exact ⟨.nil, rfl, rfl⟩
  | cons t ts ih =>
      obtain ⟨v, htokens, hlatest⟩ := ih (fun u hu => hblank u (List.mem_cons_of_mem _ hu))
      obtain ⟨w, htokens', hlatest'⟩ :=
        (Values.filler (.nil : Values filler stop) t
          (hfiller t (hblank t (List.mem_cons_self ..)))).exists_append v
      exact ⟨w, by simp [htokens', htokens, tokens], by simp [hlatest', hlatest, latest]⟩

/-- White space behind a list of values. -/
theorem exists_spaced (hfiller : ∀ t : Token, t.isBlank = true → filler t = true)
    (v : Values filler stop) (g : Gap) :
    ∃ w : Values filler stop, w.tokens = v.tokens ++ g.1 ∧ w.latest = v.latest := by
  obtain ⟨space, htokens, hlatest⟩ := exists_gap stop hfiller g
  obtain ⟨w, htokens', hlatest'⟩ := v.exists_append space
  exact ⟨w, by rw [htokens', htokens], by rw [hlatest', hlatest, List.nil_append]⟩

/-- More tokens may separate values. -/
theorem exists_weakened {wider : TokenClass} (hw : ∀ t, filler t = true → wider t = true)
    (v : Values filler stop) :
    ∃ w : Values wider stop, w.tokens = v.tokens ∧ w.latest = v.latest := by
  induction v with
  | nil => exact ⟨.nil, rfl, rfl⟩
  | filler before t fits ih =>
      obtain ⟨w, htokens, hlatest⟩ := ih hw
      exact ⟨.filler w t (hw t fits), by simp [tokens, htokens], hlatest⟩
  | atom before t c fits goes ih =>
      obtain ⟨w, htokens, hlatest⟩ := ih hw
      exact ⟨.atom w t c fits goes, by simp [tokens, htokens], by simp [latest, hlatest]⟩
  | nested before t o fits members closer ih _ =>
      obtain ⟨w, htokens, hlatest⟩ := ih hw
      exact ⟨.nested w t o fits members closer, by simp [tokens, htokens],
        by simp [latest, hlatest]⟩

/-- No value holds an `!important`. -/
theorem not_important_of_filler (v : Values filler stop)
    (hfiller : ∀ t, filler t = true → t.kind ≠ .important) :
    ∀ t ∈ v.tokens, t.kind ≠ .important := by
  have hstart : ∀ {t : Token}, t.valueStart ≠ .nothing → t.kind ≠ .important := by
    intro t h himportant
    exact h (by simp [Token.valueStart, himportant])
  induction v with
  | nil => simp [tokens]
  | filler before t fits ih =>
      intro u hu
      rcases List.mem_append.1 hu with hu | hu
      · exact ih hfiller u hu
      · rw [List.mem_singleton.1 hu]
        exact hfiller t fits
  | atom before t c fits goes ih =>
      intro u hu
      rcases List.mem_append.1 hu with hu | hu
      · exact ih hfiller u hu
      · rw [List.mem_singleton.1 hu]
        exact hstart (by simp [fits])
  | nested before t o fits members closer ih ihMembers =>
      intro u hu
      simp only [tokens, List.mem_append, List.mem_cons, List.not_mem_nil, or_false] at hu
      rcases hu with hu | rfl | hu | rfl
      · exact ih hfiller u hu
      · refine hstart ?_
        rw [fits]
        cases o <;> simp [Opening.toStart]
      · exact ihMembers (fun t ht => Token.not_important_of_isBlank ht) u hu
      · simp [Token.kind_of_isChar closer.2]

/-- No token is an `!important` where only white space and comments separate. -/
theorem not_important (v : Values Token.isBlank stop) : ∀ t ∈ v.tokens, t.kind ≠ .important :=
  v.not_important_of_filler fun _ ht => Token.not_important_of_isBlank ht

end Values

/-! ## Reading -/

/-- The values read so far, latest first, and a function or group that may be open. -/
structure Reader where
  values : List Construct
  nesting : Option Nesting

namespace Reader

/-- What becomes of a list of values, unless no value can be built. -/
def take (r : Reader) : Building → Option Reader
  | .complete c => some ⟨c :: r.values, none⟩
  | .pending n => some ⟨r.values, some n⟩
  | .rejected => none

/-- Give one more token. Between values the tokens of the class `filler` separate. -/
def step (filler : TokenClass) (context : Context) (limit : TokenClass) (r : Reader) (t : Token) :
    Option Reader :=
  match r.nesting with
  | some n => if t.isBlank then some r else r.take (n.step context limit t)
  | none => if filler t then some r else r.take (Nesting.start context t)

/-- Give tokens one after the other. -/
def feed (filler : TokenClass) (context : Context) (limit : TokenClass) (r : Reader)
    (ts : List Token) : Option Reader :=
  ts.foldlM (step filler context limit) r

theorem feed_append (filler : TokenClass) (context : Context) (limit : TokenClass) (r : Reader)
    (ts us : List Token) :
    feed filler context limit r (ts ++ us) =
      (feed filler context limit r ts).bind (fun r' => feed filler context limit r' us) := by
  simp only [feed, List.foldlM_append]
  rfl

@[simp] theorem feed_nil (filler : TokenClass) (context : Context) (limit : TokenClass)
    (r : Reader) : feed filler context limit r [] = some r := rfl

theorem feed_cons (filler : TokenClass) (context : Context) (limit : TokenClass) (r : Reader)
    (t : Token) (ts : List Token) :
    feed filler context limit r (t :: ts) =
      (step filler context limit r t).bind (fun r' => feed filler context limit r' ts) := rfl

/-! ## One token inside a function or group -/

section Inside

variable {separator : TokenClass} {context : Context} {limit : TokenClass} (cs : List Construct)
  (o : Opening) (l : Location) (members : List Construct) (outer : List Frame) {t : Token}

theorem step_blank_inside (h : t.isBlank = true) :
    step separator context limit ⟨cs, some ⟨⟨o, l, members⟩, outer⟩⟩ t =
      some ⟨cs, some ⟨⟨o, l, members⟩, outer⟩⟩ := by
  simp [step, h]

theorem step_atom_inside (hcontext : context.Broad)
    (hlimit : ∀ t, limit t = true → t.valueStart = .nothing) {c : Construct}
    (h : t.valueStart = .atom c) (hgoes : o.closes t = false) :
    step separator context limit ⟨cs, some ⟨⟨o, l, members⟩, outer⟩⟩ t =
      some ⟨cs, some ⟨⟨o, l, c :: members⟩, outer⟩⟩ := by
  have hstart : t.valueStart ≠ .nothing := by simp [h]
  have hlimit' : limit t = false := by
    rw [← Bool.not_eq_true]
    exact fun hl => hstart (hlimit t hl)
  have hpermits := Context.permits_atom
    (Nesting.memberContext_broad hcontext ⟨⟨o, l, members⟩, outer⟩) h
  simp [step, Token.not_isBlank_of_valueStart hstart, Nesting.step, Frame.closedBy_eq, hgoes,
    hlimit', h, Nesting.place, hpermits, take, Frame.push]

theorem step_open_inside (hlimit : ∀ t, limit t = true → t.valueStart = .nothing) {p : Opening}
    (h : t.valueStart = p.toStart) :
    step separator context limit ⟨cs, some ⟨⟨o, l, members⟩, outer⟩⟩ t =
      some ⟨cs, some ⟨⟨p, t.location, []⟩, ⟨o, l, members⟩ :: outer⟩⟩ := by
  have hstart : t.valueStart ≠ .nothing := by
    rw [h]
    cases p <;> simp [Opening.toStart]
  have hlimit' : limit t = false := by
    rw [← Bool.not_eq_true]
    exact fun hl => hstart (hlimit t hl)
  cases p <;>
    simp [step, Token.not_isBlank_of_valueStart hstart, Nesting.step, Frame.closedBy_eq,
      Token.closes_of_valueStart h, hlimit', h, Opening.toStart, Nesting.nest, take]

theorem step_close_inside (hcontext : context.Broad) {f : Frame}
    (hclose : t.isChar f.opening.closer = true) :
    step separator context limit ⟨cs, some ⟨f, ⟨o, l, members⟩ :: outer⟩⟩ t =
      some ⟨cs, some ⟨⟨o, l, f.close :: members⟩, outer⟩⟩ := by
  have hcloses : f.opening.closes t = true := hclose
  have hpermits := Context.permits_close
    (Nesting.memberContext_broad hcontext ⟨⟨o, l, members⟩, outer⟩) f
  simp [step, Token.not_isBlank_of_isChar hclose, Nesting.step, Frame.closedBy_eq, hcloses,
    Nesting.close, Nesting.place, hpermits, take, Frame.push]

theorem step_close_outermost (hcontext : context.Broad) {f : Frame}
    (hclose : t.isChar f.opening.closer = true) :
    step separator context limit ⟨cs, some ⟨f, []⟩⟩ t = some ⟨f.close :: cs, none⟩ := by
  have hcloses : f.opening.closes t = true := hclose
  simp [step, Token.not_isBlank_of_isChar hclose, Nesting.step, Frame.closedBy_eq, hcloses,
    Nesting.close, Context.permits_close hcontext f, take]

end Inside

/-! ## Trees are read -/

section Reading

variable {separator : TokenClass} {context : Context} {limit : TokenClass}

/-- The members of a function or group go to the innermost one that is open. -/
theorem feed_members (hcontext : context.Broad)
    (hlimit : ∀ t, limit t = true → t.valueStart = .nothing) {filler stop : TokenClass}
    (v : Values filler stop) (hfiller : ∀ t, filler t = true → t.isBlank = true) (o : Opening)
    (hstop : o.closes = stop) (cs : List Construct) (l : Location) (members : List Construct)
    (outer : List Frame) :
    feed separator context limit ⟨cs, some ⟨⟨o, l, members⟩, outer⟩⟩ v.tokens =
      some ⟨cs, some ⟨⟨o, l, v.latest ++ members⟩, outer⟩⟩ := by
  induction v generalizing o l members outer with
  | nil => rfl
  | filler before t fits ih =>
      rw [Values.tokens, Values.latest, feed_append, ih hfiller o hstop, Option.bind_some,
        feed_cons, step_blank_inside _ _ _ _ _ (hfiller t fits)]
      rfl
  | atom before t c fits goes ih =>
      have hgoes : o.closes t = false := by rw [hstop]; exact goes
      rw [Values.tokens, Values.latest, feed_append, ih hfiller o hstop, Option.bind_some,
        feed_cons, step_atom_inside _ _ _ _ _ hcontext hlimit fits hgoes]
      rfl
  | nested before t p fits inner closer ihb ihm =>
      rw [Values.tokens, Values.latest, feed_append, ihb hfiller o hstop, Option.bind_some,
        feed_cons, step_open_inside _ _ _ _ _ hlimit fits, Option.bind_some, feed_append,
        ihm (fun _ h => h) p rfl, Option.bind_some, feed_cons, List.append_nil,
        step_close_inside _ _ _ _ _ hcontext closer.2]
      rfl

/-- **The tokens of a list of values are read as its constructs.** -/
theorem feed_tokens (context : Context) (limit : TokenClass) (hcontext : context.Broad)
    (hlimit : ∀ t, limit t = true → t.valueStart = .nothing) {filler stop : TokenClass}
    (hfiller : ∀ t, filler t = true → t.valueStart = .nothing) (v : Values filler stop)
    (cs : List Construct) :
    feed filler context limit ⟨cs, none⟩ v.tokens = some ⟨v.latest ++ cs, none⟩ := by
  induction v with
  | nil => rfl
  | filler before t fits ih =>
      rw [Values.tokens, Values.latest, feed_append, ih hfiller, Option.bind_some, feed_cons]
      simp [step, fits]
  | @atom filler stop before t c fits goes ih =>
      have hgoes : filler t = false := by
        rw [← Bool.not_eq_true]
        exact fun hf => by simp [hfiller t hf] at fits
      rw [Values.tokens, Values.latest, feed_append, ih hfiller, Option.bind_some, feed_cons]
      simp [step, hgoes, Nesting.start, fits, Context.permits_atom hcontext fits, take]
  | @nested filler stop before t o fits members closer ih _ =>
      have hopen : step filler context limit ⟨before.latest ++ cs, none⟩ t =
          some ⟨before.latest ++ cs, some ⟨⟨o, t.location, []⟩, []⟩⟩ := by
        have hgoes : filler t = false := by
          rw [← Bool.not_eq_true]
          intro hf
          rw [hfiller t hf] at fits
          cases o <;> simp [Opening.toStart] at fits
        cases o <;> simp [step, hgoes, Nesting.start, fits, Opening.toStart, take]
      rw [Values.tokens, Values.latest, feed_append, ih hfiller, Option.bind_some, feed_cons, hopen,
        Option.bind_some, feed_append, feed_members hcontext hlimit members (fun _ h => h) o rfl,
        Option.bind_some, feed_cons, List.append_nil, step_close_outermost _ hcontext closer.2]
      rfl

end Reading

/-! ## What is read is a tree -/

/-- The tokens behind the first token of the outermost open function or group, and the frames that
they lead to. -/
inductive Opened : Frame → List Frame → List Token → Prop
  | outermost (t : Token) (o : Opening) (fits : t.valueStart = o.toStart)
      (members : Values Token.isBlank o.closes) :
      Opened ⟨o, t.location, members.latest⟩ [] (t :: members.tokens)
  | inside {f : Frame} {outer : List Frame} {ts : List Token} (h : Opened f outer ts) (t : Token)
      (o : Opening) (fits : t.valueStart = o.toStart) (members : Values Token.isBlank o.closes) :
      Opened ⟨o, t.location, members.latest⟩ (f :: outer) (ts ++ t :: members.tokens)

/-- More members for the innermost open function or group. -/
theorem Opened.extend {f : Frame} {outer : List Frame} {ts us : List Token}
    (h : Opened f outer ts) (cs : List Construct)
    (hmore : ∀ v : Values Token.isBlank f.opening.closes,
      ∃ w : Values Token.isBlank f.opening.closes,
        w.tokens = v.tokens ++ us ∧ w.latest = cs ++ v.latest) :
    Opened { f with members := cs ++ f.members } outer (ts ++ us) := by
  cases h with
  | outermost t o fits members =>
      obtain ⟨w, htokens, hlatest⟩ := hmore members
      have hw := Opened.outermost t o fits w
      rw [htokens, hlatest] at hw
      exact hw
  | inside h t o fits members =>
      obtain ⟨w, htokens, hlatest⟩ := hmore members
      have hw := Opened.inside h t o fits w
      rw [htokens, hlatest] at hw
      simpa using hw

/-- What has been read are values, and perhaps a function or group that is open. -/
def Read (filler : TokenClass) (r : Reader) (ts : List Token) : Prop :=
  ∃ v : Values filler TokenClass.never, v.latest = r.values ∧
    match r.nesting with
    | none => v.tokens = ts
    | some n => ∃ us : List Token, Opened n.inner n.outer us ∧ ts = v.tokens ++ us

section Trees

variable {filler : TokenClass} {context : Context} {limit : TokenClass} {r r' : Reader}
  {ts : List Token} {t : Token}

/-- A token between values. -/
theorem Read.step_between {cs : List Construct} (h : Read filler ⟨cs, none⟩ ts)
    (hstep : step filler context limit ⟨cs, none⟩ t = some r') : Read filler r' (ts ++ [t]) := by
  obtain ⟨v, hlatest, htokens⟩ := h
  subst hlatest htokens
  simp only [step] at hstep
  split at hstep
  · next hfiller =>
      cases hstep
      exact ⟨v.filler t hfiller, rfl, rfl⟩
  · cases hstart : t.valueStart with
    | atom c =>
        simp only [Nesting.start, hstart] at hstep
        split at hstep
        · cases hstep
          exact ⟨v.atom t c hstart rfl, rfl, rfl⟩
        · simp [take] at hstep
    | function name =>
        simp only [Nesting.start, hstart, take] at hstep
        cases hstep
        exact ⟨v, rfl, [t], .outermost t (.function name) hstart .nil, rfl⟩
    | group delimiter =>
        simp only [Nesting.start, hstart, take] at hstep
        cases hstep
        exact ⟨v, rfl, [t], .outermost t (.group delimiter) hstart .nil, rfl⟩
    | nothing => simp [Nesting.start, hstart, take] at hstep

/-- A token inside a function or group. -/
theorem Read.step_inside {cs : List Construct} {n : Nesting} (h : Read filler ⟨cs, some n⟩ ts)
    (hstep : step filler context limit ⟨cs, some n⟩ t = some r') : Read filler r' (ts ++ [t]) := by
  obtain ⟨v, hlatest, us, hopened, hts⟩ := h
  rcases n with ⟨f, outer⟩
  simp only at hlatest hopened
  subst hlatest hts
  simp only [step] at hstep
  split at hstep
  · next hblank =>
      cases hstep
      refine ⟨v, rfl, us ++ [t], ?_, by simp⟩
      exact hopened.extend [] (fun w => ⟨w.filler t hblank, rfl, rfl⟩)
  · simp only [Nesting.step, Frame.closedBy_eq] at hstep
    split at hstep
    · next hcloses =>
        -- What closes was the outermost, or it becomes a member of what is around it.
        cases hopened with
        | outermost u o fits members =>
            simp only [Nesting.close] at hstep
            split at hstep
            · cases hstep
              exact ⟨v.nested u o fits members ⟨t, hcloses⟩, rfl, by simp [Values.tokens]⟩
            · simp [take] at hstep
        | @inside g outer us h u o fits members =>
            simp only [Nesting.close, Nesting.place] at hstep
            split at hstep
            · cases hstep
              refine ⟨v, rfl, us ++ (u :: (members.tokens ++ [t])), ?_, by simp⟩
              exact h.extend [_] (fun w =>
                ⟨w.nested u o fits members ⟨t, hcloses⟩, rfl, rfl⟩)
            · simp [take] at hstep
    · next hcloses =>
        split at hstep
        · simp [take] at hstep
        · cases hstart : t.valueStart with
          | atom c =>
              simp only [hstart, Nesting.place] at hstep
              split at hstep
              · cases hstep
                refine ⟨v, rfl, us ++ [t], ?_, by simp⟩
                exact hopened.extend [c] (fun w =>
                  ⟨w.atom t c hstart (by simpa using hcloses), rfl, rfl⟩)
              · simp [take] at hstep
          | function name =>
              simp only [hstart, take] at hstep
              cases hstep
              exact ⟨v, rfl, us ++ [t], .inside hopened t (.function name) hstart .nil, by simp⟩
          | group delimiter =>
              simp only [hstart, take] at hstep
              cases hstep
              exact ⟨v, rfl, us ++ [t], .inside hopened t (.group delimiter) hstart .nil, by simp⟩
          | nothing => simp [hstart, take] at hstep

/-- What has been read grows by one token at a time. -/
theorem Read.step (h : Read filler r ts) (hstep : r.step filler context limit t = some r') :
    Read filler r' (ts ++ [t]) := by
  rcases r with ⟨cs, nesting⟩
  cases nesting with
  | none => exact h.step_between hstep
  | some n => exact h.step_inside hstep

theorem Read.feed (h : Read filler r ts) {us : List Token}
    (hfeed : r.feed filler context limit us = some r') : Read filler r' (ts ++ us) := by
  induction us generalizing r ts with
  | nil =>
      cases hfeed
      simpa using h
  | cons u us ih =>
      rw [feed_cons] at hfeed
      obtain ⟨r₁, hstep, hrest⟩ := Option.bind_eq_some_iff.1 hfeed
      have hmore := ih (h.step hstep) hrest
      rwa [List.append_assoc] at hmore

/-- **Tokens that are read as values are the tokens of a list of these values.** -/
theorem exists_values_of_feed {cs : List Construct}
    (h : feed filler context limit ⟨[], none⟩ ts = some ⟨cs, none⟩) :
    ∃ v : Values filler TokenClass.never, v.tokens = ts ∧ v.latest = cs := by
  have hinitial : Read filler ⟨[], none⟩ [] := ⟨.nil, rfl, rfl⟩
  obtain ⟨v, hlatest, htokens⟩ := hinitial.feed h
  exact ⟨v, htokens, hlatest⟩

end Trees

end Reader

end Concrete

end EpubStyle
