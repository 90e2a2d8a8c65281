import Mathlib.Control.Monad.Basic
import EpubStyle.Proofs.Parse.Sources
import EpubStyle.Proofs.Profile.Reports
import EpubStyle.Proofs.Sheet.Locations

/-!
# Syntax errors in reports

No syntax error escapes a report. A handler that collects problems receives them from the same
source in the language of the parse; each of them is a diagnostic of its own in the report, with its
message, its code and its place, and no other diagnostic is a syntax error (`Report.Conveys`). Only
a source without problems has a valid report.

A report is arranged by lines and columns. The sort is stable, so the diagnostics at one place are
in the order in which the checks emitted them (`Report.filter_ordered`): first what was found about
the encoding, then what each event led to, one event after the other, and the syntax errors last. A
source that is too large has no report (`checkSheet_conveys`).
-/

set_option autoImplicit false

namespace EpubStyle

/-! ## Arranged reports -/

namespace Diagnostic

/-- The diagnostic is at this line and column. -/
def isAt (line column : Nat) (d : Diagnostic) : Bool := d.line == line && d.column == column

theorem notAfter_iff {a b : Diagnostic} :
    a.notAfter b = true ↔ a.line < b.line ∨ a.line = b.line ∧ a.column ≤ b.column := by
  simp [notAfter]

theorem notAfter_trans (a b c : Diagnostic) (hab : a.notAfter b = true)
    (hbc : b.notAfter c = true) : a.notAfter c = true := by
  rw [notAfter_iff] at *
  omega

theorem notAfter_total (a b : Diagnostic) : (a.notAfter b || b.notAfter a) = true := by
  rw [Bool.or_eq_true, notAfter_iff, notAfter_iff]
  omega

end Diagnostic

namespace Report

theorem pairwise_ordered (r : Report) :
    r.ordered.diagnostics.Pairwise
      (fun a b => a.line < b.line ∨ a.line = b.line ∧ a.column ≤ b.column) := by
  have hsorted := List.pairwise_mergeSort Diagnostic.notAfter_trans Diagnostic.notAfter_total
    r.diagnostics
  apply hsorted.imp
  intro a b hab
  exact Diagnostic.notAfter_iff.1 hab

/-- **Arranging keeps the order at one place.** -/
theorem filter_ordered (r : Report) (line column : Nat) :
    r.ordered.diagnostics.filter (Diagnostic.isAt line column) =
      r.diagnostics.filter (Diagnostic.isAt line column) := by
  have hplace : (r.diagnostics.filter (Diagnostic.isAt line column)).Pairwise
      (fun a b => a.notAfter b = true) := by
    -- None of them stands behind another one.
    apply List.pairwise_of_forall_mem_list
    intro a ha b hb
    have hatA := (List.mem_filter.1 ha).2
    have hatB := (List.mem_filter.1 hb).2
    simp only [Diagnostic.isAt, Bool.and_eq_true, beq_iff_eq] at hatA hatB
    rw [Diagnostic.notAfter_iff]
    omega
  -- So the sort keeps their order, and it adds no others.
  have hkept := List.sublist_mergeSort Diagnostic.notAfter_trans Diagnostic.notAfter_total hplace
    List.filter_sublist
  have hfiltered := hkept.filter (Diagnostic.isAt line column)
  simp only [List.filter_filter, Bool.and_self] at hfiltered
  have hlength := ((List.mergeSort_perm r.diagnostics Diagnostic.notAfter).filter
    (Diagnostic.isAt line column)).length_eq
  exact (hfiltered.eq_of_length hlength.symm).symm

/-- Diagnostics of reports behind one another. -/
theorem diagnostics_join (reports : List Report) :
    (join reports).diagnostics = reports.flatMap diagnostics := by
  induction reports with
  | nil => rfl
  | cons r reports ih =>
      rw [List.flatMap_cons, ← ih]
      rfl

theorem withCode_join {reports : List Report} {code : String}
    (h : ∀ r ∈ reports, r.withCode code = []) : (join reports).withCode code = [] := by
  rw [withCode, diagnostics_join, List.filter_flatMap, List.flatMap_eq_nil_iff]
  exact h

/-- A valid report has no errors. -/
theorem severity_ne_error {r : Report} (h : r.isValid = true) :
    ∀ d ∈ r.diagnostics, d.finding.severity ≠ .error := by
  simpa [isValid, count, List.countP_eq_zero] using h

end Report

/-! ## What the events of a style lead to -/

namespace Subject

variable (s : Subject)

/-- The reports of events one by one, where a font face may be open. -/
def eventReports : Option OpenFontFace → List Event → List Report
  | _, [] => []
  | open?, e :: events => (s.step open? e).2 :: eventReports (s.step open? e).1 events

/-- The report of events is that of each of them, one after the other. -/
theorem reviewFrom_eq_join (open? : Option OpenFontFace) (events : List Event) :
    s.reviewFrom open? events = .join (s.eventReports open? events) := by
  induction events generalizing open? with
  | nil => rfl
  | cons e events ih =>
      simp only [reviewFrom, ih]
      rfl

/-- The codes of findings about events. -/
def eventCodes : List String :=
  ["CSS-001", "CSS-002", "CSS-006", "CSS-007", "CSS-013", "CSS-019", "CSS-023"]

section WithCode

variable {code : String} (h : code ∉ eventCodes)

include h

theorem withCode_referTo (kind : ReferenceKind) (a : String × Location) :
    (s.referTo kind a).withCode code = [] := by
  unfold referTo
  split
  · exact s.withCode_report (ne_of_mem_of_not_mem (by decide) h) _
  · rfl

theorem withCode_referToAll (kind : ReferenceKind) (cs : List Construct) :
    (s.referToAll kind cs).withCode code = [] := by
  apply Report.withCode_join
  intro r hr
  obtain ⟨a, -, rfl⟩ := List.mem_map.1 hr
  exact s.withCode_referTo h kind a

theorem withCode_descriptorReport (d : Declaration) :
    (s.descriptorReport d).withCode code = [] := by
  unfold descriptorReport
  split
  · have hcode : code ≠ "CSS-007" := (ne_of_mem_of_not_mem (by decide) h).symm
    rw [Report.withCode_append, s.withCode_referToAll h, s.withCode_fontFindings _ _ hcode]
    rfl
  · exact s.withCode_referToAll h .url d.value

theorem withCode_fontFaceReport (font : OpenFontFace) :
    (s.fontFaceReport font).withCode code = [] := by
  unfold fontFaceReport
  rw [Report.withCode_append, Report.withCode_ofFontFaces, List.append_nil]
  split
  · exact s.withCode_report (ne_of_mem_of_not_mem (by decide) h) _
  · rfl

theorem withCode_atRuleReport (r : AtRule) : (s.atRuleReport r).withCode code = [] := by
  unfold atRuleReport
  split
  · split
    · exact s.withCode_referTo h .imported _
    · rfl
  split
  · have hcode : Finding.mediaRule.code ≠ code := ne_of_mem_of_not_mem (by decide) h
    rw [Report.withCode_append, s.withCode_referToAll h, s.withCode_report hcode]
    rfl
  · exact s.withCode_referToAll h .url r.parameters

/-- One event leads to findings of its codes only. -/
theorem withCode_step (open? : Option OpenFontFace) (e : Event) :
    (s.step open? e).2.withCode code = [] := by
  cases e with
  | start | finish | selectors _ | endSelectors _ => rfl
  | atRule r =>
      simp only [step]
      split
      · rfl
      · exact s.withCode_atRuleReport h r
  | endAtRule name =>
      simp only [step]
      split
      · cases open? with
        | none => rfl
        | some font => exact s.withCode_fontFaceReport h font
      · rfl
  | declaration d =>
      -- The codes of declarations are among those of events, and `code` is none of these.
      have hsubset : ["CSS-001", "CSS-006", "CSS-013"] ⊆ eventCodes := by decide
      have hrules := s.withCode_declarationFindings d (mt (hsubset ·) h)
      cases open? with
      | none =>
          simp only [step]
          rw [Report.withCode_append, s.withCode_referToAll h, hrules]
          rfl
      | some font =>
          simp only [step]
          rw [Report.withCode_append, s.withCode_descriptorReport h, hrules]
          rfl

theorem withCode_reviewFrom (open? : Option OpenFontFace) (events : List Event) :
    (s.reviewFrom open? events).withCode code = [] := by
  induction events generalizing open? with
  | nil => rfl
  | cons e events ih =>
      simp only [reviewFrom]
      rw [Report.withCode_append, s.withCode_step h, ih]
      rfl

end WithCode

end Subject

/-! ## Syntax errors -/

/-- A style that is a document of its own has its places there. -/
theorem Origin.place_start {l : Location} (h : l.Counted) : start.place l = (l.line, l.column) := by
  have hline := h.line
  have hcolumn := h.column
  simp only [place, start]
  split
  · exact Prod.ext (by simp only; omega) (by simp only; omega)
  · exact Prod.ext (by simp only; omega) rfl

/-- The diagnostic says that this problem was received while the style sheet at a path was
parsed. -/
structure RenderedProblem.ReportedAs (locale : Locale) (path : String) (p : RenderedProblem)
    (d : Diagnostic) : Prop where
  code : d.finding.code = "CSS-008"
  severity : d.finding.severity = .error
  message : d.finding.message locale = "An error occurred while parsing the CSS: " ++ p.message
  hint : d.finding.hint? = some ("parser code `" ++ p.code.key ++ "`")
  path : d.path = path
  line : d.line = p.location.line
  column : d.column = p.location.column

/-- The report conveys what was received of a source: all problems, and otherwise what the checks of
the encoding and of the events emit. -/
structure Report.Conveys (r : Report) (s : Subject) (source : Bytes.Source)
    (received : Transcript (List RenderedProblem)) : Prop where
  /-- Syntax errors are the problems one by one, and they are emitted last. -/
  emitted : ∃ errors,
    List.Forall₂ (RenderedProblem.ReportedAs s.options.parse.locale s.path) received.state errors ∧
      (r.withCode "CSS-008").Perm errors ∧
      ∀ line column, r.diagnostics.filter (Diagnostic.isAt line column) =
        ((s.encodingReport source).diagnostics ++
          (s.eventReports none received.events).flatMap Report.diagnostics ++ errors).filter
            (Diagnostic.isAt line column)
  sorted : r.diagnostics.Pairwise
    (fun a b => a.line < b.line ∨ a.line = b.line ∧ a.column ≤ b.column)
  /-- A valid report means that there were no problems. -/
  valid : r.isValid = true → received.state = []

/-- A problem is reported where it is. -/
theorem Problem.reportedAs_diagnose {p : Problem} (h : p.location.Counted) (o : CheckOptions)
    (path : String) :
    (p.render o.parse.locale).ReportedAs o.parse.locale path
      (Subject.diagnose ⟨path, .start, o⟩ (.syntaxError p) p.location) where
  code := rfl
  severity := rfl
  message := rfl
  hint := rfl
  path := rfl
  line := congrArg Prod.fst (Origin.place_start h)
  column := congrArg Prod.snd (Origin.place_start h)

/-- What a handler collects was signalled. -/
theorem mem_signals_of_mem_deliver {h : Handler} {capacity n : Nat} {signals : List Signal}
    {p : Problem} (hp : p ∈ (deliver h capacity n signals).problems) : .problem p ∈ signals := by
  induction signals generalizing n with
  | nil => cases hp
  | cons s signals ih =>
      cases s with
      | event e => exact List.mem_cons_of_mem _ (ih hp)
      | problem q =>
          simp only [deliver] at hp
          split at hp
          · rcases List.mem_cons.1 hp with rfl | hp
            · exact List.mem_cons_self ..
            · exact List.mem_cons_of_mem _ (ih hp)
          · exact List.mem_cons_of_mem _ (ih hp)
          · cases hp
      | stepBack distance =>
          simp only [deliver] at hp
          split at hp
          · exact List.mem_cons_of_mem _ (ih hp)
          · cases hp

/-- Problems of a source are counted from one. -/
theorem counted_parseSource (o : ParseOptions) (h : Handler) (source : Bytes.Source) :
    ∀ p ∈ (parseSource o h source).problems, p.location.Counted := by
  intro p hp
  unfold parseSource at hp
  split at hp
  · cases hp
  · exact counted_parseSignals _ _ _ (mem_signals_of_mem_deliver hp)

namespace Subject

/-- Syntax errors are reported one by one. -/
theorem reportedAs_syntaxErrors {problems : List Problem}
    (h : ∀ p ∈ problems, p.location.Counted) (o : CheckOptions) (path : String) :
    List.Forall₂ (RenderedProblem.ReportedAs o.parse.locale path)
      (problems.map (Problem.render o.parse.locale))
      (syntaxErrors ⟨path, .start, o⟩ problems).diagnostics := by
  rw [List.forall₂_map_left_iff]
  apply List.forall₂_map_right_iff.2
  rw [List.forall₂_same]
  intro p hp
  exact Problem.reportedAs_diagnose (h p hp) o path

/-- Nothing else in a report is a syntax error. -/
theorem withCode_ordered (s : Subject) (source : Bytes.Source) (events : List Event)
    (problems : List Problem) :
    ((s.encodingReport source ++ s.review events problems).ordered.withCode "CSS-008").Perm
      (s.syntaxErrors problems).diagnostics := by
  have hsyntax : (s.syntaxErrors problems).withCode "CSS-008" =
      (s.syntaxErrors problems).diagnostics := by
    apply List.filter_eq_self.2
    intro d hd
    obtain ⟨p, -, rfl⟩ := List.mem_map.1 hd
    rfl
  have hparts : (s.encodingReport source ++ s.review events problems).withCode "CSS-008" =
      (s.syntaxErrors problems).diagnostics := by
    rw [review, Report.withCode_append, Report.withCode_append,
      s.withCode_encodingReport source (by decide) (by decide), s.withCode_reviewFrom (by decide),
      hsyntax]
    rfl
  rw [← hparts]
  exact Report.withCode_ordered _ _

/-- What is emitted comes from the encoding, from event after event, and from the syntax errors. -/
theorem diagnostics_emitted (s : Subject) (source : Bytes.Source) (events : List Event)
    (problems : List Problem) :
    (s.encodingReport source ++ s.review events problems).diagnostics =
      (s.encodingReport source).diagnostics ++
        (s.eventReports none events).flatMap Report.diagnostics ++
          (s.syntaxErrors problems).diagnostics := by
  rw [review, reviewFrom_eq_join, Report.diagnostics_append, Report.diagnostics_append,
    Report.diagnostics_join, List.append_assoc]

/-- **A report that is put together from its parts conveys what was received.** -/
theorem conveys_ordered {o : CheckOptions} {path : String} (source : Bytes.Source)
    (events : List Event) {problems : List Problem} (h : ∀ p ∈ problems, p.location.Counted)
    (stop : Option Stop) :
    Report.Conveys
      (encodingReport ⟨path, .start, o⟩ source ++ review ⟨path, .start, o⟩ events problems).ordered
      ⟨path, .start, o⟩ source ⟨events, problems.map (Problem.render o.parse.locale), stop⟩ where
  emitted := by
    refine ⟨_, reportedAs_syntaxErrors h o path, withCode_ordered _ source events problems, ?_⟩
    intro line column
    rw [Report.filter_ordered, diagnostics_emitted]
  sorted := Report.pairwise_ordered _
  valid := by
    intro hvalid
    -- The first problem would be an error in the report.
    cases problems with
    | nil => rfl
    | cons p problems =>
        have hcode := withCode_ordered ⟨path, .start, o⟩ source events (p :: problems)
        have hfirst := hcode.mem_iff.2 (List.mem_cons_self ..)
        exact absurd rfl (Report.severity_ne_error hvalid _ (List.mem_of_mem_filter hfirst))

end Subject

section CheckSheet

variable (o : CheckOptions) (path : String) (bytes : List UInt8)

/-- What a handler that collects problems receives of a style sheet. -/
def sheetTranscript : Transcript (List RenderedProblem) :=
  (Handler.collecting none).listener.parseSource [] o.parse (.ofBytes path bytes)

/-- **No syntax error escapes the report.** A report of a style sheet conveys what a handler that
collects problems receives of the same bytes, all of it. If they are too many, there is an error and
no report. -/
theorem checkSheet_conveys :
    (∀ r, checkSheet o path bytes = .ok r →
      (sheetTranscript o path bytes).stop = none ∧
        r.Conveys ⟨path, .start, o⟩ (.ofBytes path bytes) (sheetTranscript o path bytes)) ∧
      ∀ limit, o.parse.maxBytes = some limit → limit < (Bytes.Source.ofBytes path bytes).size →
        checkSheet o path bytes =
          .error (.tooLarge (Bytes.Source.ofBytes path bytes).size limit) := by
  have hlistener := (Handler.collecting none).parseSource_listener o.parse (.ofBytes path bytes)
  constructor
  -- There is a report only if nothing failed, so the parse went on to its end.
  · intro r hr
    have hfailure := failure_of_checkSheet hr
    have hcounted := counted_parseSource o.parse (.collecting none) (.ofBytes path bytes)
    simp only [checkSheet, hfailure, Except.ok.injEq] at hr
    subst hr
    refine ⟨?_, ?_⟩
    · rw [sheetTranscript, hlistener, hfailure]
      rfl
    · rw [sheetTranscript, hlistener]
      exact Subject.conveys_ordered _ _ hcounted _
  · intro limit hlimit hsize
    have htoo : o.parse.sizeFailure? (Bytes.Source.ofBytes path bytes).size =
        some (.tooLarge (Bytes.Source.ofBytes path bytes).size limit) := by
      simp [ParseOptions.sizeFailure?, hlimit, hsize]
    simp only [checkSheet, parseSource, htoo]
    rfl

end CheckSheet

/-- A rule set with a declaration without a value, and an important one behind it. -/
def faultySheet : List UInt8 := Bytes.Utf8.encode "a\x7bb:;c:d!important\x7d"

/-- The report of `faultySheet`. The syntax error is emitted last and stands first. -/
def faultyReport : Report :=
  ⟨[⟨.syntaxError (.expecting ⟨.char, ";", ⟨1, 5, 5, "c.css"⟩, []⟩ (.phrase .propertyValue)),
      "c.css", 1, 5⟩, ⟨.important "c", "c.css", 1, 6⟩], [], []⟩

theorem checkSheet_faultySheet : checkSheet .default "c.css" faultySheet = .ok faultyReport := by
  have hfailure : (parseSource .default (.collecting none)
      (.ofBytes "c.css" faultySheet)).failure = none := by
    decide +kernel
  have hemitted :
      Subject.encodingReport ⟨"c.css", .start, .default⟩ (.ofBytes "c.css" faultySheet) ++
        Subject.review ⟨"c.css", .start, .default⟩
          (parseSource .default (.collecting none) (.ofBytes "c.css" faultySheet)).events
          (parseSource .default (.collecting none) (.ofBytes "c.css" faultySheet)).problems =
        ⟨faultyReport.diagnostics.reverse, [], []⟩ := by
    decide +kernel
  have hparse : CheckOptions.default.parse = .default := rfl
  -- The two diagnostics change places.
  simp only [checkSheet, hparse, hfailure, hemitted]
  simp [Report.ordered, faultyReport, List.mergeSort, Diagnostic.notAfter]

/-- The report of `faultySheet`, and what comes instead if one byte less is allowed. -/
theorem checkSheet_conveys_faultySheet :
    (checkSheet .default "c.css" faultySheet = .ok faultyReport ∧
      faultyReport.Conveys ⟨"c.css", .start, .default⟩ (.ofBytes "c.css" faultySheet)
        (sheetTranscript .default "c.css" faultySheet)) ∧
      checkSheet ⟨.epub3, [], ⟨.english, 2, some 18⟩⟩ "c.css" faultySheet =
        .error (.tooLarge 19 18) := by
  have hsize : (Bytes.Source.ofBytes "c.css" faultySheet).size = 19 := by
    decide +kernel
  have hreport := (checkSheet_conveys .default "c.css" faultySheet).1 _ checkSheet_faultySheet
  have hlarge := (checkSheet_conveys ⟨.epub3, [], ⟨.english, 2, some 18⟩⟩ "c.css" faultySheet).2 18
    rfl (by rw [hsize]; decide)
  rw [hsize] at hlarge
  exact ⟨⟨checkSheet_faultySheet, hreport.2⟩, hlarge⟩

end EpubStyle
