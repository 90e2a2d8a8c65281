import EpubStyle.Proofs.Sheet.BlockSteps

/-!
# The verdicts of one entry

Where a declaration may start in a block, an entry comes to at least one verdict by its end, a
declaration or a problem (`Entry.exists_outcome`). It comes to no second one if it is read to its
end, or if it is given up where the machine can tell its own semicolons from the one that ends it:
at one of them, where what is open has been counted, or behind the last of them. Of such an entry
`Entry.isolated` holds. Given up anywhere else, the entry is taken to end at the first semicolon
inside it, and another declaration starts there.

What is under way at a token is compared with what is open there (`BlockPhase.Fits`), one token at a
time (`BlockStep.fits`). With that goes the number of verdicts still to come (`BlockPhase.owed`).
-/

set_option autoImplicit false

namespace EpubStyle

open Concrete

/-! ## Where a declaration is given up -/

/-- The token at which the reader of a declaration gives up, with those behind it. -/
def Reading.givenUp? (r : Reading) : List Token → Option (Token × List Token)
  | [] => none
  | t :: ts =>
      match r.advance .block t t with
      | .pending r' => r'.givenUp? ts
      | .complete _ | .rejected _ _ => some (t, ts)

namespace Concrete.Entry

/-- The token at which an entry turns out to be no declaration, with those behind it. -/
def givenUp? (e : Entry) : Option (Token × List Token) :=
  if e.first.kind == .ident then (Reading.named e.first).givenUp? e.rest
  else some (e.first, e.rest)

/-- If the entry is given up, it is at a semicolon or behind all of them. -/
def isolated (e : Entry) : Bool :=
  match e.givenUp? with
  | some (t, behind) => t.isChar ';' || behind.all (fun u => !u.isChar ';')
  | none => true

end Concrete.Entry

/-! ## What is under way inside an entry -/

namespace BlockPhase

/-- What can be under way where the characters `closers` must close what is open. -/
def Fits : BlockPhase → List Char → Prop
  | opened, closers | between, closers => closers ≠ []
  | reading r, closers => ∃ own outer, closers = own ++ outer ∧ r.Tracks own
  | skipping depth, _ => depth = 0
  | skippingNested depth, closers => depth ≤ closers.length

/-- The number of verdicts that are still to come before a declaration may end. -/
def owed : BlockPhase → Nat
  | opened | between | reading _ => 1
  | skipping _ | skippingNested _ => 0

end BlockPhase

section Runs

variable {t : Token} {ts : List Token} {closers closers' : List Char} {phase phase' : BlockPhase}
  {verdicts : List (Option Declaration)}

theorem fits_behind (own outer : List Char) (h : NestStep t (own ++ outer) closers') :
    (BlockPhase.behind t own.length).Fits closers' := by
  unfold BlockPhase.behind
  split
  · next hsemicolon =>
      -- The semicolon stands inside something, even where the reader has opened nothing itself.
      obtain ⟨rfl, hopen⟩ := h.of_semicolon hsemicolon
      split
      · exact hopen
      · simp [BlockPhase.Fits]
  · rfl

/-- The number that a skipping reader counts never exceeds what is open. -/
theorem nestingStep_le (h : NestStep t closers closers') {depth : Nat}
    (hdepth : depth ≤ closers.length) : nestingStep depth t ≤ closers'.length := by
  cases h with
  | opens o hstart hcount =>
      rw [hcount, List.length_cons]
      omega
  | closes o outer hclosers hclose hcount =>
      rw [hclosers, List.length_cons] at hdepth
      rw [hcount]
      omega
  | inside hstart hclose hbrace hsemicolon hcount => rwa [hcount]

/-- **What one token of an entry does to what is under way.** A verdict that is owed is given or
still owed. -/
theorem BlockStep.fits (h : BlockStep t phase verdicts phase') (hnest : NestStep t closers closers')
    (hfits : phase.Fits closers) :
    phase'.Fits closers' ∧ phase.owed ≤ verdicts.length + phase'.owed := by
  have hbetween : t.isChar ';' = true → BlockPhase.between.Fits closers' := by
    intro hsemicolon
    obtain ⟨rfl, hopen⟩ := hnest.of_semicolon hsemicolon
    exact hopen
  cases h with
  | blank phase hblank =>
      obtain rfl := hnest.of_isBlank hblank
      exact ⟨hfits, by simp⟩
  | name hphase hname =>
      refine ⟨⟨[], closers', rfl, rfl⟩, ?_⟩
      rcases hphase with rfl | rfl <;> simp [BlockPhase.owed]
  | nameless hphase hblank hname =>
      refine ⟨fits_behind [] closers hnest, ?_⟩
      rcases hphase with rfl | rfl <;> simp [BlockPhase.owed]
  | takes h =>
      obtain ⟨own, outer, rfl, hr⟩ := hfits
      obtain ⟨own', outer', hclosers, -, hr'⟩ := (Reading.agrees_advance t hr hnest).pending _ h
      exact ⟨⟨own', outer', hclosers, hr'⟩, by simp [BlockPhase.owed]⟩
  | completes h =>
      -- A closing brace would complete the declaration, too, but an entry has none.
      have hends : t.isChar ';' = true ∨ t.isChar '}' = true := by
        simpa [Setting.ends] using (Reading.of_advance_eq_complete h).1
      refine ⟨hbetween (hends.resolve_right fun hclose => hnest.not_isBrace (.inr hclose)), ?_⟩
      simp [BlockPhase.owed]
  | rejects h =>
      obtain ⟨own, outer, rfl, hr⟩ := hfits
      obtain rfl := (Reading.agrees_advance t hr hnest).rejected _ _ h
      exact ⟨fits_behind own outer hnest, by simp [BlockPhase.owed]⟩
  | skips hblank h => exact ⟨hfits, by simp [BlockPhase.owed]⟩
  | resumes hsemicolon => exact ⟨hbetween hsemicolon, by simp [BlockPhase.owed]⟩
  | skipsNested hblank h => exact ⟨nestingStep_le hnest hfits, by simp [BlockPhase.owed]⟩
  | resumesNested hdepth hsemicolon => exact ⟨hbetween hsemicolon, by simp [BlockPhase.owed]⟩

/-- **What the tokens of an entry do** from inside it. -/
theorem exists_run_of_fits (h : Nested closers ts) (hfits : phase.Fits closers) :
    ∃ verdicts phase', BlockRun phase ts verdicts phase' ∧ phase'.Fits [] ∧
      phase.owed ≤ verdicts.length + phase'.owed := by
  -- What fits before a token fits behind it, and no step drops a verdict that is owed.
  induction h generalizing phase with
  | nil => exact ⟨[], phase, .nil phase, hfits, by simp⟩
  | @cons t ts _ _ hnest _ ih =>
      obtain ⟨v, phase₁, hstep⟩ := exists_blockStep t phase
      obtain ⟨hfits₁, howed⟩ := hstep.fits hnest hfits
      obtain ⟨verdicts, phase', hrun, hfits', howed'⟩ := ih hfits₁
      refine ⟨v ++ verdicts, phase', .cons hnest.not_isBrace hstep hrun, hfits', ?_⟩
      rw [List.length_append]
      omega

/-- Where nothing is open any more, a declaration may end. -/
theorem BlockPhase.Fits.exists_ends (h : phase.Fits []) :
    ∃ verdicts, phase.Ends verdicts ∧ verdicts.length = phase.owed := by
  cases phase with
  | opened | between => exact absurd rfl h
  | reading r =>
      obtain ⟨own, outer, hclosers, hr⟩ := h
      obtain ⟨rfl, -⟩ := List.append_eq_nil_iff.1 hclosers.symm
      obtain ⟨v, hends⟩ := BlockPhase.Ends.exists_of_tracks hr
      exact ⟨[v], hends, rfl⟩
  | skipping depth =>
      obtain rfl : depth = 0 := h
      exact ⟨[], .skipped, rfl⟩
  | skippingNested depth =>
      obtain rfl : depth = 0 := Nat.le_zero.1 h
      exact ⟨[], .skippedNested, rfl⟩

/-! ## Up to where a declaration is given up -/

/-- A reader that knows all that is open goes on knowing it. -/
theorem tracks_of_advance {r r' : Reading} (hr : r.Tracks closers)
    (hnest : NestStep t closers closers') (h : r.advance .block t t = .pending r') :
    r'.Tracks closers' := by
  rw [← List.append_nil closers] at hnest
  obtain ⟨own, outer, rfl, houter, hr'⟩ := (Reading.agrees_advance t hr hnest).pending _ h
  rwa [houter rfl, List.append_nil]

/-- A reader that knows all that is open says so where it gives up. -/
theorem depth_of_advance {r : Reading} {p : Problem} {depth : Nat} (hr : r.Tracks closers)
    (hnest : NestStep t closers closers') (h : r.advance .block t t = .rejected p depth) :
    depth = closers.length := by
  rw [← List.append_nil closers] at hnest
  exact (Reading.agrees_advance t hr hnest).rejected p depth h

/-- A declaration that is not given up is read to its end. -/
theorem run_of_givenUp_none {r : Reading} (hnested : Nested closers ts) (h : r.givenUp? ts = none)
    (hr : r.Tracks closers) : ∃ r', BlockRun (.reading r) ts [] (.reading r') ∧ r'.Tracks [] := by
  -- The reader knows all that is open at every token, so it is outside everything at the end.
  induction hnested generalizing r with
  | nil => exact ⟨r, .nil _, hr⟩
  | @cons t ts closers closers₁ hnest _ ih =>
      cases hadvance : r.advance .block t t with
      | complete d => simp [Reading.givenUp?, hadvance] at h
      | rejected p depth => simp [Reading.givenUp?, hadvance] at h
      | pending r₁ =>
          rw [Reading.givenUp?, hadvance] at h
          obtain ⟨r', hrun, hr'⟩ := ih h (tracks_of_advance hr hnest hadvance)
          exact ⟨r', .cons hnest.not_isBrace (.takes hadvance) hrun, hr'⟩

/-- What the machine skips of a declaration that is given up at the token `t`. -/
def BlockPhase.ofGivenUp (t : Token) (closers : List Char) : BlockPhase :=
  if t.isChar ';' then .skippingNested closers.length else .skipping 0

theorem behind_eq_ofGivenUp (h : NestStep t closers closers') :
    BlockPhase.behind t closers.length = .ofGivenUp t closers' := by
  unfold BlockPhase.behind BlockPhase.ofGivenUp
  split
  · next hsemicolon =>
      obtain ⟨rfl, hopen⟩ := h.of_semicolon hsemicolon
      exact if_neg (fun hlength => hopen (List.eq_nil_of_length_eq_zero hlength))
  · rfl

/-- A declaration that is given up is skipped from there. At a semicolon the machine knows how much
is open. -/
theorem run_of_givenUp_some {r : Reading} {behind : List Token} (hnested : Nested closers ts)
    (h : r.givenUp? ts = some (t, behind)) (hr : r.Tracks closers) :
    ∃ taken closers', ts = taken ++ behind ∧ Nested closers' behind ∧
      BlockRun (.reading r) taken [none] (.ofGivenUp t closers') := by
  induction hnested generalizing r with
  | nil => cases h
  | @cons u ts closers closers₁ hnest hrest ih =>
      cases hadvance : r.advance .block u u with
      | complete d =>
          -- Only a semicolon inside something could complete it, but then a member is being read.
          obtain ⟨hends, d, rfl, -, -⟩ := Reading.of_advance_eq_complete hadvance
          have hchar : u.isChar ';' = true ∨ u.isChar '}' = true := by
            simpa [Setting.ends] using hends
          have hsemicolon : u.isChar ';' = true :=
            hchar.resolve_right (fun hclose => hnest.not_isBrace (.inr hclose))
          exact absurd hr.1 (hnest.of_semicolon hsemicolon).2
      | rejected p depth =>
          simp only [Reading.givenUp?, hadvance, Option.some.injEq, Prod.mk.injEq] at h
          obtain ⟨rfl, rfl⟩ := h
          obtain rfl := depth_of_advance hr hnest hadvance
          refine ⟨[u], closers₁, rfl, hrest, ?_⟩
          rw [← behind_eq_ofGivenUp hnest]
          exact .cons hnest.not_isBrace (.rejects hadvance) (.nil _)
      | pending r₁ =>
          rw [Reading.givenUp?, hadvance] at h
          obtain ⟨taken, closers', rfl, hbehind, hrun⟩ :=
            ih h (tracks_of_advance hr hnest hadvance)
          exact ⟨u :: taken, closers', rfl, hbehind,
            .cons hnest.not_isBrace (.takes hadvance) hrun⟩

/-! ## Behind the token where a declaration is given up -/

/-- What is skipped goes on behind any other token. -/
theorem blockStep_skipping (h : t.isChar ';' = false) :
    BlockStep t (.skipping 0) [] (.skipping 0) := by
  cases hblank : t.isBlank with
  | true => exact .blank _ hblank
  | false => exact .skips hblank (by simp [h])

/-- Without a semicolon the rest of the entry is skipped. -/
theorem run_skipping (hnested : Nested closers ts) (h : ∀ t ∈ ts, t.isChar ';' = false) :
    BlockRun (.skipping 0) ts [] (.skipping 0) := by
  induction hnested with
  | nil => exact .nil _
  | @cons t ts _ _ hnest _ ih =>
      have hstep := blockStep_skipping (h t (List.mem_cons_self ..))
      have hrun := ih (fun u hu => h u (List.mem_cons_of_mem _ hu))
      exact .cons hnest.not_isBrace hstep hrun

/-- With a semicolon the machine goes on behind the first one, inside something. -/
theorem exists_run_between (hnested : Nested closers ts) (h : ∃ t ∈ ts, t.isChar ';' = true) :
    ∃ skipped rest closers', ts = skipped ++ rest ∧ closers' ≠ [] ∧ Nested closers' rest ∧
      BlockRun (.skipping 0) skipped [] .between := by
  induction hnested with
  | nil => simp at h
  | @cons t ts closers closers₁ hnest hrest ih =>
      -- The machine stops at any semicolon here, although it ends nothing but what is inside.
      by_cases hsemicolon : t.isChar ';' = true
      · obtain ⟨rfl, hopen⟩ := hnest.of_semicolon hsemicolon
        exact ⟨[t], ts, closers₁, rfl, hopen, hrest,
          .cons hnest.not_isBrace (.resumes hsemicolon) (.nil _)⟩
      · have hlater : ∃ t ∈ ts, t.isChar ';' = true := by
          obtain ⟨u, hu, hmark⟩ := h
          rcases List.mem_cons.1 hu with rfl | hu
          · exact absurd hmark hsemicolon
          · exact ⟨u, hu, hmark⟩
        obtain ⟨skipped, rest, closers', rfl, hopen, hrest, hrun⟩ := ih hlater
        have hstep := blockStep_skipping (by simpa using hsemicolon)
        exact ⟨t :: skipped, rest, closers', rfl, hopen, hrest,
          .cons hnest.not_isBrace hstep hrun⟩

/-- A reader that knows how much is open skips to where nothing is open. -/
theorem run_skippingNested (hnested : Nested closers ts) :
    BlockRun (.skippingNested closers.length) ts [] (.skippingNested 0) := by
  induction hnested with
  | nil => exact .nil _
  | @cons t ts closers closers₁ hnest _ ih =>
      have hstep : BlockStep t (.skippingNested closers.length) []
          (.skippingNested closers₁.length) := by
        cases hblank : t.isBlank with
        | true =>
            obtain rfl := hnest.of_isBlank hblank
            exact .blank _ hblank
        | false =>
            rw [← hnest.nestingStep_length]
            apply BlockStep.skipsNested hblank
            rw [hnest.nestingStep_length, Bool.and_eq_false_iff]
            -- Where a semicolon stands something is open, so the count is not zero.
            by_cases hsemicolon : t.isChar ';' = true
            · obtain ⟨rfl, hopen⟩ := hnest.of_semicolon hsemicolon
              exact .inl (by simpa using hopen)
            · exact .inr (by simpa using hsemicolon)
      exact .cons hnest.not_isBrace hstep ih

end Runs

/-! ## Whole entries -/

namespace Concrete.Entry

/-- Where a declaration may start, an entry comes to these verdicts by its end. -/
def Accounts (e : Entry) (total : List (Option Declaration)) : Prop :=
  ∀ phase : BlockPhase, phase.Starting →
    ∃ verdicts phase' missing, BlockRun phase e.tokens verdicts phase' ∧ phase'.Ends missing ∧
      total = verdicts ++ missing

/-- What an entry comes to: one verdict if it is isolated. Otherwise there are several, and one of
them is a problem. -/
inductive Outcome (e : Entry) (total : List (Option Declaration)) : Prop
  | single (haccounts : e.Accounts total) (hisolated : e.isolated = true) (v : Option Declaration)
      (htotal : total = [v])
  | several (haccounts : e.Accounts total) (hother : e.isolated = false) (hproblem : none ∈ total)
      (hlength : 2 ≤ total.length)

namespace Outcome

variable {e : Entry} {total : List (Option Declaration)}

theorem accounts (h : e.Outcome total) : e.Accounts total := by
  cases h with
  | single haccounts hisolated v htotal => exact haccounts
  | several haccounts hother hproblem hlength => exact haccounts

theorem exists_eq (h : e.Outcome total) (hisolated : e.isolated = true) : ∃ v, total = [v] := by
  cases h with
  | single haccounts hsingle v htotal => exact ⟨v, htotal⟩
  | several haccounts hother hproblem hlength =>
      rw [hisolated] at hother
      cases hother

theorem length_pos (h : e.Outcome total) : 1 ≤ total.length := by
  cases h with
  | single haccounts hisolated v htotal => simp [htotal]
  | several haccounts hother hproblem hlength => omega

end Outcome

variable (e : Entry)

/-- White space and comments before an entry are passed over. -/
theorem run_gap (phase : BlockPhase) (g : Gap) : BlockRun phase g.1 [] phase := by
  rcases g with ⟨ts, hts⟩
  induction ts with
  | nil => exact .nil phase
  | cons t ts ih =>
      have hblank : t.isBlank = true := hts t (List.mem_cons_self ..)
      have hbrace : ¬ t.IsBrace := by
        intro h
        simp [h.not_isBlank] at hblank
      exact .cons hbrace (.blank phase hblank) (ih (fun u hu => hts u (List.mem_cons_of_mem _ hu)))

/-- The first token of an entry, behind what separates it from the one before. -/
theorem run_first {verdicts : List (Option Declaration)} {phase phase' : BlockPhase}
    (h : BlockStep e.first phase verdicts phase') :
    BlockRun phase (e.gap.1 ++ [e.first]) verdicts phase' := by
  obtain ⟨closers, hnest, -⟩ := e.exists_nested
  have hfirst : BlockRun phase [e.first] (verdicts ++ []) phase' :=
    .cons hnest.not_isBrace h (.nil phase')
  rw [List.append_nil] at hfirst
  exact (run_gap phase e.gap).append hfirst

/-- A name opens nothing. -/
theorem nested_of_name (hname : e.first.kind = .ident) : Nested [] e.rest := by
  obtain ⟨closers, hnest, hrest⟩ := e.exists_nested
  have hatom : e.first.valueStart =
      .atom (.atom .keyword e.first.text e.first.location) := by
    simp [Token.valueStart, hname]
  obtain rfl : closers = [] := by
    apply hnest.eq_nil
    intro o ho
    rw [hatom] at ho
    cases o <;> cases ho
  exact hrest

/-- An entry that is not given up is read to its end. -/
theorem run_of_givenUp_none (h : e.givenUp? = none) :
    ∃ r : Reading, r.Tracks [] ∧
      ∀ phase : BlockPhase, phase.Starting → BlockRun phase e.tokens [] (.reading r) := by
  unfold givenUp? at h
  split at h
  · next hname =>
      rw [beq_iff_eq] at hname
      obtain ⟨r, hrun, hr⟩ := EpubStyle.run_of_givenUp_none (e.nested_of_name hname) h rfl
      refine ⟨r, hr, ?_⟩
      intro phase hphase
      rw [Entry.tokens, List.append_cons]
      exact (e.run_first (.name hphase hname)).append hrun
  · cases h

/-- An entry that is given up is skipped from there. -/
theorem run_of_givenUp_some {t : Token} {behind : List Token}
    (h : e.givenUp? = some (t, behind)) :
    ∃ taken closers, e.tokens = taken ++ behind ∧ Nested closers behind ∧
      ∀ phase : BlockPhase, phase.Starting →
        BlockRun phase taken [none] (.ofGivenUp t closers) := by
  unfold givenUp? at h
  -- An entry is given up behind its name, or at its first token if that is none.
  split at h
  · next hname =>
      rw [beq_iff_eq] at hname
      obtain ⟨taken, closers, hrest, hbehind, hrun⟩ :=
        EpubStyle.run_of_givenUp_some (e.nested_of_name hname) h rfl
      refine ⟨e.gap.1 ++ e.first :: taken, closers, ?_, hbehind, ?_⟩
      · rw [Entry.tokens, hrest, List.append_assoc, List.cons_append]
      · intro phase hphase
        rw [List.append_cons]
        exact (e.run_first (.name hphase hname)).append hrun
  · next hname =>
      have hname : e.first.kind ≠ .ident := by simpa using hname
      cases h
      obtain ⟨closers, hnest, hrest⟩ := e.exists_nested
      refine ⟨e.gap.1 ++ [e.first], closers, ?_, hrest, ?_⟩
      · rw [Entry.tokens, List.append_cons]
      · intro phase hphase
        rw [← behind_eq_ofGivenUp hnest]
        exact e.run_first (.nameless hphase e.significant hname)

/-- The verdicts of an entry that is given up. -/
theorem accounts_of_behind {taken behind : List Token} {phase₁ phase' : BlockPhase}
    {verdicts missing : List (Option Declaration)} (htokens : e.tokens = taken ++ behind)
    (htaken : ∀ phase : BlockPhase, phase.Starting → BlockRun phase taken [none] phase₁)
    (hbehind : BlockRun phase₁ behind verdicts phase') (hends : phase'.Ends missing) :
    e.Accounts (none :: (verdicts ++ missing)) := by
  intro phase hphase
  refine ⟨none :: verdicts, phase', missing, ?_, hends, rfl⟩
  rw [htokens]
  exact (htaken phase hphase).append hbehind

/-- A declaration that is given up at a semicolon is skipped to its end. -/
theorem outcome_of_semicolon {t : Token} {behind : List Token}
    (hgiven : e.givenUp? = some (t, behind)) (hsemicolon : t.isChar ';' = true) :
    e.Outcome [none] := by
  obtain ⟨taken, closers, htokens, hnested, hrun⟩ := e.run_of_givenUp_some hgiven
  simp only [BlockPhase.ofGivenUp, hsemicolon, if_true] at hrun
  refine .single ?_ ?_ none rfl
  · exact e.accounts_of_behind htokens hrun (run_skippingNested hnested) .skippedNested
  · simp [Entry.isolated, hgiven, hsemicolon]

/-- So is one that is given up behind all semicolons. -/
theorem outcome_of_no_semicolon {t : Token} {behind : List Token}
    (hgiven : e.givenUp? = some (t, behind)) (hsemicolon : t.isChar ';' = false)
    (hnone : ∀ u ∈ behind, u.isChar ';' = false) : e.Outcome [none] := by
  obtain ⟨taken, closers, htokens, hnested, hrun⟩ := e.run_of_givenUp_some hgiven
  simp only [BlockPhase.ofGivenUp, hsemicolon, Bool.false_eq_true, if_false] at hrun
  have hall : behind.all (fun u => !u.isChar ';') = true := by simpa [List.all_eq_true] using hnone
  refine .single ?_ ?_ none rfl
  · exact e.accounts_of_behind htokens hrun (run_skipping hnested hnone) .skipped
  · simp [Entry.isolated, hgiven, hall]

/-- Behind any other token a second declaration starts at the first semicolon, and comes to a
verdict, too. -/
theorem exists_outcome_of_later {t : Token} {behind : List Token}
    (hgiven : e.givenUp? = some (t, behind)) (hsemicolon : t.isChar ';' = false)
    (hlater : ∃ u ∈ behind, u.isChar ';' = true) : ∃ total, e.Outcome total := by
  obtain ⟨taken, closers, htokens, hnested, hrun⟩ := e.run_of_givenUp_some hgiven
  simp only [BlockPhase.ofGivenUp, hsemicolon, Bool.false_eq_true, if_false] at hrun
  have hother : e.isolated = false := by
    obtain ⟨u, hu, hmark⟩ := hlater
    have hall : behind.all (fun u => !u.isChar ';') = false := by
      rw [List.all_eq_false]
      exact ⟨u, hu, by simp [hmark]⟩
    simp [Entry.isolated, hgiven, hsemicolon, hall]
  -- Behind the semicolon a declaration may start, so from there on one more verdict is owed.
  obtain ⟨skipped, rest, closers', rfl, hopen, hrest, hskipped⟩ :=
    exists_run_between hnested hlater
  have hbetween : BlockPhase.between.Fits closers' := hopen
  obtain ⟨verdicts, phase', hsecond, hfits, howed⟩ := exists_run_of_fits hrest hbetween
  obtain ⟨missing, hends, hmissing⟩ := hfits.exists_ends
  have haccounts := e.accounts_of_behind htokens hrun (hskipped.append hsecond) hends
  refine ⟨_, .several haccounts hother (List.mem_cons_self ..) ?_⟩
  have hsecond : 1 ≤ verdicts.length + phase'.owed := howed
  simp only [List.nil_append, List.length_cons, List.length_append, hmissing]
  omega

/-- **Every entry comes to some verdicts.** -/
theorem exists_outcome : ∃ total, e.Outcome total := by
  -- The cases are those of `isolated`: where the entry is given up, and what stands behind.
  cases hgiven : e.givenUp? with
  | none =>
      obtain ⟨r, hr, hrun⟩ := e.run_of_givenUp_none hgiven
      obtain ⟨v, hends⟩ := BlockPhase.Ends.exists_of_tracks hr
      refine ⟨[v], .single ?_ ?_ v rfl⟩
      · intro phase hphase
        exact ⟨[], _, [v], hrun phase hphase, hends, rfl⟩
      · simp [Entry.isolated, hgiven]
  | some given =>
      obtain ⟨t, behind⟩ := given
      cases hsemicolon : t.isChar ';' with
      | true => exact ⟨_, e.outcome_of_semicolon hgiven hsemicolon⟩
      | false =>
          by_cases hlater : ∃ u ∈ behind, u.isChar ';' = true
          · exact e.exists_outcome_of_later hgiven hsemicolon hlater
          · refine ⟨_, e.outcome_of_no_semicolon hgiven hsemicolon ?_⟩
            intro u hu
            rw [← Bool.not_eq_true]
            exact fun hmark => hlater ⟨u, hu, hmark⟩

end Concrete.Entry

end EpubStyle
