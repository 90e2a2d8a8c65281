import EpubStyle.Profile.Validate
import EpubStyle.Proofs.Parse.Aborting
import EpubStyle.Proofs.WellFormed.Events

/-!
# What a report consists of

The check of a style sheet has a report only if its parse does not fail. Then the events are those
of a whole document and well-formed (`document_of_checkSheet`, `wellFormed_of_checkSheet`), and the
report is made of three parts: what the encoding, the events and the syntax errors give. Arranging
the diagnostics loses none of them.

References and font faces come from the events alone, and so do the diagnostics of every code that
belongs neither to the encoding nor to syntax errors (`reviewed_of_checkSheet`).
-/

set_option autoImplicit false

namespace EpubStyle

/-! ## Diagnostics of one code -/

namespace Report

/-- The diagnostics with a code, in order. -/
def withCode (r : Report) (code : String) : List Diagnostic :=
  r.diagnostics.filter (fun d => d.finding.code == code)

@[simp] theorem withCode_append (a b : Report) (code : String) :
    (a ++ b).withCode code = a.withCode code ++ b.withCode code :=
  List.filter_append ..

@[simp] theorem withCode_empty (code : String) : empty.withCode code = [] := rfl

@[simp] theorem withCode_ofReferences (list : List Reference) (code : String) :
    (ofReferences list).withCode code = [] := rfl

@[simp] theorem withCode_ofFontFaces (list : List FontFace) (code : String) :
    (ofFontFaces list).withCode code = [] := rfl

/-- Findings of other codes do not count. -/
theorem withCode_ofDiagnostics {list : List Diagnostic} {code : String}
    (h : ∀ d ∈ list, d.finding.code ≠ code) : (ofDiagnostics list).withCode code = [] := by
  apply List.filter_eq_nil_iff.2
  intro d hd
  simpa using h d hd

/-- Arranging a report moves its diagnostics only. -/
theorem withCode_ordered (r : Report) (code : String) :
    (r.ordered.withCode code).Perm (r.withCode code) :=
  (List.mergeSort_perm r.diagnostics Diagnostic.notAfter).filter _

end Report

namespace Subject

variable (s : Subject) {code : String}

/-- A finding of another code. -/
theorem withCode_report {finding : Finding} (h : finding.code ≠ code) (l : Location) :
    (s.report finding l).withCode code = [] := by
  apply Report.withCode_ofDiagnostics
  intro d hd
  rw [List.mem_singleton.1 hd]
  exact h

/-- Declarations are found fault with under three codes. -/
theorem withCode_declarationFindings (d : Declaration)
    (h : code ∉ ["CSS-001", "CSS-006", "CSS-013"]) :
    (Report.ofDiagnostics ((s.declarationFindings d).map
      (fun finding => s.diagnose finding d.location))).withCode code = [] := by
  have hcodes : ∀ finding ∈ s.declarationFindings d,
      finding.code ∈ ["CSS-001", "CSS-006", "CSS-013"] := by
    intro finding hfinding
    rcases List.mem_append.1 hfinding with hfinding | hfinding
    · repeat' split at hfinding
      all_goals simp at hfinding
      all_goals
        subst hfinding
        simp [Finding.code]
    · split at hfinding
      all_goals simp at hfinding
      subst hfinding
      simp [Finding.code]
  apply Report.withCode_ofDiagnostics
  intro diagnostic hdiagnostic hcode
  obtain ⟨finding, hfinding, rfl⟩ := List.mem_map.1 hdiagnostic
  apply h
  rw [← hcode]
  exact hcodes finding hfinding

/-- Fonts are found fault with under one code. -/
theorem withCode_fontFindings (resources : List String) (l : Location) (h : code ≠ "CSS-007") :
    (Report.ofDiagnostics ((resources.filterMap s.fontFinding?).map
      (fun finding => s.diagnose finding l))).withCode code = [] := by
  apply Report.withCode_ofDiagnostics
  intro diagnostic hdiagnostic
  obtain ⟨finding, hfinding, rfl⟩ := List.mem_map.1 hdiagnostic
  obtain ⟨resource, -, hresource⟩ := List.mem_filterMap.1 hfinding
  unfold fontFinding? at hresource
  repeat' split at hresource
  all_goals simp at hresource
  subst hresource
  exact h.symm

end Subject

/-! ## Checks of style sheets -/

/-- The events that the check of a style sheet in bytes goes through. -/
def sheetEvents (o : CheckOptions) (path : String) (bytes : List UInt8) : List Event :=
  (parseSource o.parse (.collecting none) (.ofBytes path bytes)).events

namespace Subject

/-- The report is that of these events, apart from what the encoding and syntax errors add to its
diagnostics. -/
structure Reviewed (s : Subject) (events : List Event) (r : Report) : Prop where
  references : r.references = (s.reviewFrom none events).references
  fontFaces : r.fontFaces = (s.reviewFrom none events).fontFaces
  withCode : ∀ code, code ≠ "CSS-003" → code ≠ "CSS-004" → code ≠ "CSS-008" →
    (r.withCode code).Perm ((s.reviewFrom none events).withCode code)

/-- Encodings are found fault with under codes of their own. -/
theorem withCode_encodingReport (s : Subject) (source : Bytes.Source) {code : String}
    (hcharset : code ≠ "CSS-003") (hmark : code ≠ "CSS-004") :
    (s.encodingReport source).withCode code = [] := by
  apply Report.withCode_ofDiagnostics
  intro d hd
  obtain ⟨finding, hfinding, rfl⟩ := List.mem_map.1 hd
  simp only [encodingFindings, List.mem_append, Option.mem_toList,
    Option.map_eq_some_iff] at hfinding
  rcases hfinding with ⟨label, -, rfl⟩ | ⟨mark, -, rfl⟩
  · exact hcharset.symm
  · exact hmark.symm

/-- So are syntax errors. -/
theorem withCode_syntaxErrors (s : Subject) (problems : List Problem) {code : String}
    (herrors : code ≠ "CSS-008") : (s.syntaxErrors problems).withCode code = [] := by
  apply Report.withCode_ofDiagnostics
  intro d hd
  obtain ⟨p, -, rfl⟩ := List.mem_map.1 hd
  exact herrors.symm

theorem reviewed_ordered (s : Subject) (source : Bytes.Source) (events : List Event)
    (problems : List Problem) :
    s.Reviewed events (s.encodingReport source ++ s.review events problems).ordered where
  references := by
    simp [Report.ordered, review, encodingReport, syntaxErrors, Report.ofDiagnostics, Report.empty]
  fontFaces := by
    simp [Report.ordered, review, encodingReport, syntaxErrors, Report.ofDiagnostics, Report.empty]
  withCode := by
    intro code hcharset hmark herrors
    refine (Report.withCode_ordered _ code).trans ?_
    simp [review, s.withCode_encodingReport source hcharset hmark,
      s.withCode_syntaxErrors problems herrors]

end Subject

section CheckSheet

variable {o : CheckOptions} {path : String} {bytes : List UInt8} {r : Report}

/-- A style sheet has a report if its parse does not fail. -/
theorem failure_of_checkSheet (h : checkSheet o path bytes = .ok r) :
    (parseSource o.parse (.collecting none) (.ofBytes path bytes)).failure = none := by
  simp only [checkSheet] at h
  split at h
  · cases h
  · assumption

/-- **The report of a style sheet is that of its events.** -/
theorem reviewed_of_checkSheet (h : checkSheet o path bytes = .ok r) :
    Subject.Reviewed ⟨path, .start, o⟩ (sheetEvents o path bytes) r := by
  have hfailure := failure_of_checkSheet h
  simp only [checkSheet, hfailure, Except.ok.injEq] at h
  rw [← h]
  exact Subject.reviewed_ordered _ _ _ _

/-- A parse that does not fail delivers all events of its text. -/
theorem sheetEvents_eq (h : checkSheet o path bytes = .ok r) :
    sheetEvents o path bytes =
      (parseSignals .sheet (Bytes.Source.ofBytes path bytes).text
        (Bytes.Source.ofBytes path bytes).name).filterMap Signal.event? := by
  have hfailure := failure_of_checkSheet h
  unfold sheetEvents
  simp only [parseSource] at hfailure ⊢
  split at hfailure
  · cases hfailure
  · have hreceived := received_deliver (.collecting none) o.parse.capacity
      (parseSignals .sheet (Bytes.Source.ofBytes path bytes).text
        (Bytes.Source.ofBytes path bytes).name)
    simp only [parseAny] at hfailure ⊢
    rw [hfailure] at hreceived
    generalize (deliver (.collecting none) o.parse.capacity 0 _).events = events at hreceived
    cases hreceived
    rfl

/-- **The events of a report are those of a whole document.** -/
theorem document_of_checkSheet (h : checkSheet o path bytes = .ok r) :
    Grammar.sheet.Document (sheetEvents o path bytes) := by
  rw [sheetEvents_eq h]
  exact document_parseSignals .sheet _ _

/-- **The events of a report are well-formed.** -/
theorem wellFormed_of_checkSheet (h : checkSheet o path bytes = .ok r) :
    ∀ e ∈ sheetEvents o path bytes, e.WellFormed := by
  intro e he
  rw [sheetEvents_eq h] at he
  obtain ⟨s, hs, hse⟩ := List.mem_filterMap.1 he
  have hsignal := wellFormed_parseSignals .sheet _ _ s hs
  cases s with
  | event e' =>
      obtain rfl := Option.some.inj hse
      exact hsignal
  | problem p | stepBack distance => cases hse

end CheckSheet

end EpubStyle
