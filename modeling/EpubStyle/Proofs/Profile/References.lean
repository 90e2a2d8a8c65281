import Mathlib.Control.Monad.Basic
import EpubStyle.Proofs.Profile.Reports

/-!
# References of a style sheet

The events of a style sheet mention resources: by an address at any depth in the parameters of an
at-rule or in the value of a declaration, and by a string that an import starts with. A report
accounts for mentions one by one, each with a reference or, if it is empty, with a finding
(`Report.AccountsFor`).

What a check refers to is said event by event (`Event.referred`), whatever font face is open, and
its report accounts for exactly that (`Subject.accountsFor_referred`). Addresses at any depth of a
value are those among the members of its functions and groups (`Construct.uris_eq_addresses`), so
declarations and most at-rules lose nothing. Two at-rules do: of an import only the target is looked
at, and of a font face no parameter (`Event.overlooked`). A report therefore accounts for all that
is mentioned if and only if no event holds an address in one of these places
(`checkSheet_accountsFor_iff`).
-/

set_option autoImplicit false

namespace EpubStyle

/-! ## Addresses at any depth -/

namespace Construct

mutual

/-- A construct and everything inside it, at any depth. -/
def parts : Construct → List Construct
  | atRule name cs block l => atRule name cs block l :: partsOf cs
  | function name cs l => function name cs l :: partsOf cs
  | declaration name cs important l => declaration name cs important l :: partsOf cs
  | selector cs l => selector cs l :: partsOf cs
  | sequence cs l => sequence cs l :: partsOf cs
  | attributeSelector cs l => attributeSelector cs l :: partsOf cs
  | group delimiter cs l => group delimiter cs l :: partsOf cs
  | pseudoFunction kind name cs l => pseudoFunction kind name cs l :: partsOf cs
  | atom kind value l => [atom kind value l]
  | combinator kind l => [combinator kind l]
  | matching operator l => [matching operator l]
  | quantity value measure l => [quantity value measure l]
  | pseudo kind name l => [pseudo kind name l]

/-- Constructs and everything inside them. -/
def partsOf : List Construct → List Construct
  | [] => []
  | c :: cs => parts c ++ partsOf cs

end

/-- The address of a construct that is one. -/
def uri? : Construct → Option String
  | atom .uri value _ => some (address value)
  | _ => none

/-- The addresses at any depth of constructs, in order. -/
def uris (cs : List Construct) : List String := (partsOf cs).filterMap uri?

theorem uris_cons (c : Construct) (cs : List Construct) :
    uris (c :: cs) = (parts c).filterMap uri? ++ uris cs := by
  simp [uris, partsOf]

/-- Addresses of constructs are those of each of them. -/
theorem uris_eq_of_forall {cs : List Construct}
    (h : ∀ c ∈ cs, (parts c).filterMap uri? = (addresses c).map Prod.fst) :
    uris cs = (addressesOf cs).map Prod.fst := by
  induction cs with
  | nil => rfl
  | cons c cs ih =>
      have hrest := ih (fun d hd => h d (List.mem_cons_of_mem _ hd))
      rw [uris_cons, h c (List.mem_cons_self ..), hrest, addressesOf, List.map_append]

/-- No address of a value is missed by looking for them in functions and groups only. -/
theorem IsValue.filterMap_parts {c : Construct} (h : c.IsValue) :
    (parts c).filterMap uri? = (addresses c).map Prod.fst := by
  induction h with
  | atom kind value l hkind => cases kind <;> rfl
  | symbol c l hc => rfl
  | quantity value measure l => rfl
  | function name arguments l hname harguments ih => exact uris_eq_of_forall ih
  | group delimiter members l hmembers ih => exact uris_eq_of_forall ih

/-- **The addresses of values at any depth** are those among the members of functions and groups. -/
theorem uris_eq_addresses {cs : List Construct} (h : ∀ c ∈ cs, c.IsValue) :
    uris cs = (addressesOf cs).map Prod.fst :=
  uris_eq_of_forall (fun c hc => (h c hc).filterMap_parts)

end Construct

/-! ## What an event mentions -/

namespace Event

/-- The parameters of an at-rule, or the value of a declaration. -/
def components : Event → List Construct
  | atRule r => r.parameters
  | declaration d => d.value
  | start | finish | endAtRule _ | selectors _ | endSelectors _ => []

/-- The string that an import starts with. -/
def importString : Event → List String
  | atRule r =>
      match r.name == "@import", r.parameters with
      | true, .atom .string value _ :: _ => [value]
      | _, _ => []
  | _ => []

/-- The resources that an event mentions: the addresses at any depth in its parameters or its value,
and the string that an import starts with. -/
def mentions (e : Event) : List String := Construct.uris e.components ++ e.importString

/-- The addresses of an event that a check passes over: those in the parameters of a font face, and
those of an import that are not its target. -/
def overlooked : Event → List String
  | atRule r =>
      if r.name == "@font-face" then Construct.uris r.parameters
      else if r.name == "@import" then
        match r.parameters with
        | .atom .uri _ _ :: rest => Construct.uris rest
        | parameters => Construct.uris parameters
      else []
  | _ => []

/-- The resources of an event that a check refers to. -/
def referred : Event → List String
  | atRule r =>
      if r.name == "@font-face" then []
      else if r.name == "@import" then (Subject.importTarget? r).toList
      else (Construct.addressesOf r.parameters).map Prod.fst
  | declaration d => (Construct.addressesOf d.value).map Prod.fst
  | _ => []

/-- **What an event mentions is referred to or passed over.** -/
theorem WellFormed.mentions_perm {e : Event} (h : e.WellFormed) :
    e.mentions.Perm (e.referred ++ e.overlooked) := by
  cases e with
  | start | finish | endAtRule _ | selectors _ | endSelectors _ => rfl
  | declaration d =>
      have hvalue := Construct.uris_eq_addresses h.values
      simp [mentions, components, importString, referred, overlooked, hvalue]
  | atRule r =>
      by_cases hfont : r.name = "@font-face"
      · simp [mentions, components, importString, referred, overlooked, hfont]
      by_cases himport : r.name = "@import"
      · -- Only the first parameter of an import may be its target.
        simp only [mentions, components, importString, referred, overlooked, himport,
          Subject.importTarget?]
        rcases r.parameters with - | ⟨c, cs⟩
        · rfl
        · cases c with
          | atom kind value l =>
              cases kind with
              | uri => simp [Construct.uris_cons, Construct.parts, Construct.uri?]
              | string => exact List.perm_append_comm
              | keyword | hashName | className | unicodeRange | symbol | typeSelector => simp
          | _ => simp
      · have hparameters := Construct.uris_eq_addresses h.parameters
        simp [mentions, components, importString, referred, overlooked, hfont, himport,
          hparameters]

end Event

/-! ## Reports that account for mentions -/

/-- The report accounts for these mentions one by one: each has a reference of its own, or a finding
if it is empty, and there are no others. -/
structure Report.AccountsFor (r : Report) (mentioned : List String) : Prop where
  references : (r.references.map Reference.href).Perm (mentioned.filter (fun m => !m.isEmpty))
  findings : (r.withCode "CSS-002").length = mentioned.countP String.isEmpty

namespace Report.AccountsFor

variable {a b r : Report} {l m : List String}

theorem append (ha : a.AccountsFor l) (hb : b.AccountsFor m) : (a ++ b).AccountsFor (l ++ m) where
  references := by
    rw [references_append, List.map_append, List.filter_append]
    exact ha.references.append hb.references
  findings := by
    rw [withCode_append, List.length_append, List.countP_append, ha.findings, hb.findings]

theorem empty : Report.empty.AccountsFor [] := ⟨.nil, rfl⟩

theorem join {α : Type} {report : α → Report} {mention : α → String} (as : List α)
    (h : ∀ x, (report x).AccountsFor [mention x]) :
    (Report.join (as.map report)).AccountsFor (as.map mention) := by
  induction as with
  | nil => exact empty
  | cons x as ih => exact (h x).append ih

/-- The order of mentions does not matter. -/
theorem congr (h : r.AccountsFor l) (hlm : l.Perm m) : r.AccountsFor m where
  references := h.references.trans (hlm.filter _)
  findings := h.findings.trans (hlm.countP_eq _)

/-- As many things are said as there are mentions. -/
theorem length_eq (h : r.AccountsFor l) :
    r.references.length + (r.withCode "CSS-002").length = l.length := by
  have hreferences := h.references.length_eq
  rw [List.length_map, ← List.countP_eq_length_filter] at hreferences
  have hnegated : (fun m : String => decide (¬ m.isEmpty = true)) = fun m => !m.isEmpty := by
    funext m
    cases m.isEmpty <;> rfl
  rw [hreferences, h.findings, List.length_eq_countP_add_countP String.isEmpty, hnegated,
    Nat.add_comm]

/-- A report without references and findings of empty ones accounts for nothing. -/
theorem of_nothing (hreferences : r.references = []) (hfindings : r.withCode "CSS-002" = []) :
    r.AccountsFor [] where
  references := by rw [hreferences]; exact .nil
  findings := by rw [hfindings]; rfl

/-- If more is mentioned than is accounted for, then not all of it is. -/
theorem iff_of_perm {missed : List String} (h : r.AccountsFor l) (hm : m.Perm (l ++ missed)) :
    r.AccountsFor m ↔ missed = [] := by
  constructor
  · intro hall
    have hlength := hall.length_eq
    rw [h.length_eq, hm.length_eq, List.length_append] at hlength
    exact List.eq_nil_of_length_eq_zero (by omega)
  · rintro rfl
    rw [List.append_nil] at hm
    exact h.congr hm.symm

end Report.AccountsFor

/-! ## What a check refers to -/

namespace Subject

open Report

variable (s : Subject)

theorem accountsFor_referTo (kind : ReferenceKind) (a : String × Location) :
    (s.referTo kind a).AccountsFor [a.1] := by
  unfold referTo
  cases hempty : a.1.isEmpty with
  | true =>
      refine ⟨by simp [report, Report.ofDiagnostics, hempty, Report.empty], ?_⟩
      simp [hempty]
      rfl
  | false => exact ⟨by simp [hempty, Report.ofReferences], by simp [hempty]⟩

theorem accountsFor_referToAll (kind : ReferenceKind) (cs : List Construct) :
    (s.referToAll kind cs).AccountsFor ((Construct.addressesOf cs).map Prod.fst) :=
  AccountsFor.join _ (s.accountsFor_referTo kind)

/-- A descriptor refers to the addresses in its value, whatever else is found about its fonts. -/
theorem accountsFor_descriptorReport (d : Declaration) :
    (s.descriptorReport d).AccountsFor ((Construct.addressesOf d.value).map Prod.fst) := by
  unfold descriptorReport
  split
  · have hfonts : (Report.ofDiagnostics (((s.resources d.value).filterMap s.fontFinding?).map
        (fun finding => s.diagnose finding d.location))).AccountsFor [] :=
      .of_nothing rfl (s.withCode_fontFindings _ _ (by decide))
    simpa using (s.accountsFor_referToAll .font d.value).append hfonts
  · exact s.accountsFor_referToAll .url d.value

/-- A finding of another kind accounts for nothing. -/
theorem accountsFor_report {finding : Finding} (h : finding.code ≠ "CSS-002") (l : Location) :
    (s.report finding l).AccountsFor [] :=
  .of_nothing rfl (s.withCode_report h l)

theorem accountsFor_fontFaceReport (font : OpenFontFace) :
    (s.fontFaceReport font).AccountsFor [] := by
  have hface : (Report.ofFontFaces
      [{ font.face with location := s.origin.relocate font.face.location }]).AccountsFor [] :=
    ⟨.nil, rfl⟩
  unfold fontFaceReport
  split
  · exact (s.accountsFor_report (by decide) _).append hface
  · exact AccountsFor.empty.append hface

/-- An at-rule other than a font face refers to its target or to all addresses in its parameters. -/
theorem accountsFor_atRuleReport {r : AtRule} (hfont : r.name ≠ "@font-face") :
    (s.atRuleReport r).AccountsFor (Event.atRule r).referred := by
  have hmedia : (s.report .mediaRule r.location).AccountsFor [] :=
    s.accountsFor_report (by decide) r.location
  have haddresses := s.accountsFor_referToAll .url r.parameters
  unfold atRuleReport
  by_cases himport : r.name = "@import"
  · cases htarget : importTarget? r with
    | none => simpa [Event.referred, himport, htarget] using AccountsFor.empty
    | some href =>
        simpa [Event.referred, himport, htarget] using
          s.accountsFor_referTo .imported (href, r.location)
  · have hreferred : (Event.atRule r).referred =
        (Construct.addressesOf r.parameters).map Prod.fst := by
      simp [Event.referred, hfont, himport]
    rw [hreferred, if_neg (by simpa using himport)]
    split
    · simpa using hmedia.append haddresses
    · exact haddresses

/-- **What the report of one event accounts for**, whatever font face is open. -/
theorem accountsFor_step (open? : Option OpenFontFace) (e : Event) :
    (s.step open? e).2.AccountsFor e.referred := by
  cases e with
  | start | finish | selectors _ | endSelectors _ => exact .empty
  | atRule r =>
      by_cases hfont : r.name = "@font-face"
      · simpa [step, Event.referred, hfont] using AccountsFor.empty
      · simpa [step, hfont] using s.accountsFor_atRuleReport hfont
  | endAtRule name =>
      simp only [step]
      split
      · cases open? with
        | none => exact .empty
        | some font => exact s.accountsFor_fontFaceReport font
      · exact .empty
  | declaration d =>
      -- What the profile says about a declaration accounts for nothing.
      have hfindings : (Report.ofDiagnostics ((s.declarationFindings d).map
          (fun finding => s.diagnose finding d.location))).AccountsFor [] :=
        .of_nothing rfl (s.withCode_declarationFindings d (by decide))
      cases open? with
      | none =>
          simpa [step, Event.referred] using
            (s.accountsFor_referToAll .url d.value).append hfindings
      | some font =>
          simpa [step, Event.referred] using (s.accountsFor_descriptorReport d).append hfindings

/-- **What the report of events accounts for.** -/
theorem accountsFor_reviewFrom (open? : Option OpenFontFace) (events : List Event) :
    (s.reviewFrom open? events).AccountsFor (events.flatMap Event.referred) := by
  induction events generalizing open? with
  | nil => exact .empty
  | cons e events ih => exact (s.accountsFor_step open? e).append (ih _)

end Subject

/-! ## Style sheets -/

section CheckSheet

variable {o : CheckOptions} {path : String} {bytes : List UInt8} {r : Report}

/-- The report of a style sheet accounts for what its events refer to. -/
theorem accountsFor_referred (h : checkSheet o path bytes = .ok r) :
    r.AccountsFor ((sheetEvents o path bytes).flatMap Event.referred) := by
  have hreviewed := reviewed_of_checkSheet h
  have hevents := Subject.accountsFor_reviewFrom ⟨path, .start, o⟩ none (sheetEvents o path bytes)
  constructor
  · rw [hreviewed.references]
    exact hevents.references
  · have hcodes := hreviewed.withCode "CSS-002" (by decide) (by decide) (by decide)
    rw [hcodes.length_eq]
    exact hevents.findings

/-- What well-formed events mention is referred to or passed over. -/
theorem flatMap_mentions_perm {events : List Event} (h : ∀ e ∈ events, e.WellFormed) :
    (events.flatMap Event.mentions).Perm
      (events.flatMap Event.referred ++ events.flatMap Event.overlooked) := by
  induction events with
  | nil => exact .nil
  | cons e events ih =>
      have hfirst := (h e (List.mem_cons_self ..)).mentions_perm
      have hrest := ih (fun e' he' => h e' (List.mem_cons_of_mem _ he'))
      simp only [List.flatMap_cons]
      refine (hfirst.append hrest).trans ?_
      simp only [List.append_assoc]
      exact (List.Perm.append_left _ (List.perm_append_comm_assoc ..))

/-- **A report accounts for every resource that a style sheet mentions, if and only if no address is
passed over**: none in the parameters of a font face, and none in those of an import beside its
target. Each mention then has one reference or, if it is empty, one finding, and there are no other
ones. -/
theorem checkSheet_accountsFor_iff (h : checkSheet o path bytes = .ok r) :
    r.AccountsFor ((sheetEvents o path bytes).flatMap Event.mentions) ↔
      ∀ e ∈ sheetEvents o path bytes, e.overlooked = [] := by
  have hmentions := flatMap_mentions_perm (wellFormed_of_checkSheet h)
  rw [(accountsFor_referred h).iff_of_perm hmentions]
  exact List.flatMap_eq_nil_iff

end CheckSheet

/-- An import with one more address behind its target. -/
def importSheet : List UInt8 := Bytes.Utf8.encode "@import url(a) url(b);"

/-- The report of `importSheet` refers to the target alone. -/
def importReport : Report := ⟨[], [⟨"a", "a", ⟨1, 1, 1, "c.css"⟩, .imported⟩], []⟩

theorem checkSheet_importSheet :
    checkSheet .default "c.css" importSheet = .ok importReport := by
  decide +kernel

theorem checkSheet_accountsFor_iff_importSheet :
    checkSheet .default "c.css" importSheet = .ok importReport ∧
      (importReport.AccountsFor
          ((sheetEvents .default "c.css" importSheet).flatMap Event.mentions) ↔
        ∀ e ∈ sheetEvents .default "c.css" importSheet, e.overlooked = []) :=
  ⟨checkSheet_importSheet, checkSheet_accountsFor_iff checkSheet_importSheet⟩

/-- **Not every resource is accounted for**: the second address of `importSheet` has neither a
reference nor a finding. -/
theorem not_forall_accountsFor :
    ¬ ∀ (o : CheckOptions) (path : String) (bytes : List UInt8) (r : Report),
      checkSheet o path bytes = .ok r →
        r.AccountsFor ((sheetEvents o path bytes).flatMap Event.mentions) := by
  intro h
  have haccounts := h .default "c.css" importSheet importReport checkSheet_importSheet
  have hmentions :
      (sheetEvents .default "c.css" importSheet).flatMap Event.mentions = ["a", "b"] := by
    decide +kernel
  -- Two resources are mentioned, and the report says one thing.
  have hlength := haccounts.length_eq
  rw [hmentions] at hlength
  exact absurd hlength (by decide)

end EpubStyle
