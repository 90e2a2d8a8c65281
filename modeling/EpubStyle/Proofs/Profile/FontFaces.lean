import Mathlib.Control.Monad.Basic
import EpubStyle.Proofs.Profile.FontFaceRules
import EpubStyle.Proofs.Profile.Reports

/-!
# Font faces of a style sheet

Every font face rule of a style sheet should have a font face of its own in the report. It is
described by the declarations directly inside the rule, of which the last one of a name counts, and
it is found fault with if there are none (`Report.ShowsFontFaces`).

What a report shows is what the events gather, event by event (`Subject.showsFontFaces_reviewFrom`).
Hence all font face rules are shown as they should be if and only if all of them are undisturbed
(`checkSheet_showsFontFaces_iff`).
-/

set_option autoImplicit false

namespace EpubStyle

/-! ## Reports that show font faces -/

/-- The value of the last declaration of a name. -/
def FaceOutline.last? (f : FaceOutline) (name : String) : Option String :=
  (f.declarations.filter (fun d => d.name == name)).getLast?.map
    (fun d => Construct.plainValue d.value)

/-- The font face as reported: the last declaration of a descriptor counts, and sources add up. -/
def Subject.outlined (s : Subject) (f : FaceOutline) : FontFace where
  family := f.last? "font-family"
  style := f.last? "font-style"
  weight := f.last? "font-weight"
  sources := (f.declarations.filter (fun d => d.name == "src")).flatMap
    (fun d => s.resources d.value)
  location := s.origin.relocate f.location

/-- The font faces of the report are these, and those without declarations are found fault with. -/
structure Report.ShowsFontFaces (r : Report) (s : Subject) (faces : List FaceOutline) : Prop where
  fontFaces : r.fontFaces.Perm (faces.map s.outlined)
  findings : (r.withCode "CSS-019").Perm
    ((faces.filter (fun f => f.declarations.isEmpty)).map
      (fun f => s.diagnose .emptyFontFace f.location))

namespace Report.ShowsFontFaces

variable {s : Subject} {a b r : Report} {l m : List FaceOutline}

theorem append (ha : a.ShowsFontFaces s l) (hb : b.ShowsFontFaces s m) :
    (a ++ b).ShowsFontFaces s (l ++ m) where
  fontFaces := by
    rw [fontFaces_append, List.map_append]
    exact ha.fontFaces.append hb.fontFaces
  findings := by
    rw [withCode_append, List.filter_append, List.map_append]
    exact ha.findings.append hb.findings

/-- A report without font faces and findings about them shows none. -/
theorem of_nothing (hfontFaces : r.fontFaces = []) (hfindings : r.withCode "CSS-019" = []) :
    r.ShowsFontFaces s [] where
  fontFaces := by rw [hfontFaces]; exact .nil
  findings := by rw [hfindings]; exact .nil

theorem empty : Report.empty.ShowsFontFaces s [] := .of_nothing rfl rfl

theorem join {α : Type} {report : α → Report} (as : List α)
    (h : ∀ x, (report x).ShowsFontFaces s []) :
    (Report.join (as.map report)).ShowsFontFaces s [] := by
  induction as with
  | nil => exact empty
  | cons x as ih => exact (h x).append ih

/-- The weight of what is shown. -/
theorem weight_eq (h : r.ShowsFontFaces s l) :
    FaceOutline.weight l = r.fontFaces.length + (r.withCode "CSS-019").length := by
  rw [h.fontFaces.length_eq, h.findings.length_eq, List.length_map, List.length_map,
    FaceOutline.weight, List.countP_eq_length_filter]

/-- Rules are shown if they are undisturbed, and only then. -/
theorem iff_of_tallies {rules : List FontFaceRule} (h : r.ShowsFontFaces s l)
    (hrules : Tallies rules l) :
    r.ShowsFontFaces s (rules.map FontFaceRule.outline) ↔ ∀ f ∈ rules, f.Undisturbed := by
  cases hrules with
  | undisturbed hall => exact iff_of_true h hall
  | disturbed hnot hless =>
      refine iff_of_false ?_ hnot
      -- What a report shows has the weight of the report.
      intro hshows
      rw [hshows.weight_eq, h.weight_eq] at hless
      exact Nat.lt_irrefl _ hless

end Report.ShowsFontFaces

namespace Subject

open Report

variable (s : Subject)

/-- An open font face with the declarations of its outline. -/
def opened (f : FaceOutline) : OpenFontFace :=
  ⟨{ s.outlined f with location := f.location }, f.declarations.length⟩

/-- One more declaration describes an open font face as it does its outline. -/
theorem opened_extend (f : FaceOutline) (d : Declaration) :
    s.opened (f.extend [d]) =
      ⟨s.describe (s.opened f).face d, (s.opened f).declarations + 1⟩ := by
  unfold describe
  by_cases hfamily : d.name = "font-family"
  · simp [opened, outlined, FaceOutline.extend, FaceOutline.last?, hfamily]
  by_cases hstyle : d.name = "font-style"
  · simp [opened, outlined, FaceOutline.extend, FaceOutline.last?, hstyle]
  by_cases hweight : d.name = "font-weight"
  · simp [opened, outlined, FaceOutline.extend, FaceOutline.last?, hweight]
  by_cases hsrc : d.name = "src"
  · simp [opened, outlined, FaceOutline.extend, FaceOutline.last?, hsrc]
  simp [opened, outlined, FaceOutline.extend, FaceOutline.last?, hfamily, hstyle, hweight, hsrc]

/-- The report of a font face that ends shows it. -/
theorem showsFontFaces_fontFaceReport (f : FaceOutline) :
    (s.fontFaceReport (s.opened f)).ShowsFontFaces s [f] := by
  have hface : { (s.opened f).face with location := s.origin.relocate (s.opened f).face.location } =
      s.outlined f := rfl
  unfold fontFaceReport
  rw [hface]
  cases hdeclarations : f.declarations with
  | nil =>
      have hcount : (s.opened f).declarations = 0 := by simp [opened, hdeclarations]
      constructor
      · simp [hcount, Report.ofFontFaces, report, Report.ofDiagnostics, Report.empty]
      · simp [hcount, hdeclarations, report]
        rfl
  | cons d ds =>
      have hcount : (s.opened f).declarations ≠ 0 := by simp [opened, hdeclarations]
      constructor
      · simp [hcount, Report.ofFontFaces, Report.empty]
      · simp [hcount, hdeclarations]

theorem showsFontFaces_referTo (kind : ReferenceKind) (a : String × Location) :
    (s.referTo kind a).ShowsFontFaces s [] := by
  unfold referTo
  split
  · exact .of_nothing rfl (s.withCode_report (by decide) _)
  · exact .of_nothing rfl rfl

theorem showsFontFaces_referToAll (kind : ReferenceKind) (cs : List Construct) :
    (s.referToAll kind cs).ShowsFontFaces s [] :=
  .join _ (s.showsFontFaces_referTo kind)

theorem showsFontFaces_descriptorReport (d : Declaration) :
    (s.descriptorReport d).ShowsFontFaces s [] := by
  unfold descriptorReport
  split
  · exact (s.showsFontFaces_referToAll .font d.value).append
      (.of_nothing rfl (s.withCode_fontFindings _ _ (by decide)))
  · exact s.showsFontFaces_referToAll .url d.value

theorem showsFontFaces_atRuleReport (r : AtRule) : (s.atRuleReport r).ShowsFontFaces s [] := by
  have haddresses := s.showsFontFaces_referToAll .url r.parameters
  unfold atRuleReport
  split
  · split
    · exact s.showsFontFaces_referTo _ _
    · exact .empty
  · split
    · exact .append (.of_nothing rfl (s.withCode_report (by decide) _)) haddresses
    · exact haddresses

/-- **One event opens, describes and shows font faces as it gathers them.** -/
theorem step_opened (open? : Option FaceOutline) (e : Event) :
    (s.step (open?.map s.opened) e).1 = (gatherStep open? e).1.map s.opened ∧
      (s.step (open?.map s.opened) e).2.ShowsFontFaces s (gatherStep open? e).2 := by
  -- Only the end of a font face shows one.
  cases e with
  | start | finish | selectors _ | endSelectors _ => exact ⟨rfl, .empty⟩
  | atRule r =>
      by_cases hname : r.name = "@font-face"
      · simp only [step, gatherStep, hname]
        exact ⟨rfl, .empty⟩
      · simpa [step, gatherStep, hname] using s.showsFontFaces_atRuleReport r
  | endAtRule name =>
      by_cases hname : name = "@font-face"
      · simp only [step, gatherStep, hname]
        cases open? with
        | none => exact ⟨rfl, .empty⟩
        | some f => exact ⟨rfl, s.showsFontFaces_fontFaceReport f⟩
      · simpa [step, gatherStep, hname] using Report.ShowsFontFaces.empty
  | declaration d =>
      have hfindings : (Report.ofDiagnostics ((s.declarationFindings d).map
          (fun finding => s.diagnose finding d.location))).ShowsFontFaces s [] :=
        .of_nothing rfl (s.withCode_declarationFindings d (by decide))
      cases open? with
      | none => exact ⟨rfl, (s.showsFontFaces_referToAll .url d.value).append hfindings⟩
      | some f =>
          refine ⟨?_, (s.showsFontFaces_descriptorReport d).append hfindings⟩
          simp only [step, gatherStep, Option.map_some, s.opened_extend]

/-- **The report of events shows the font faces that they gather.** -/
theorem showsFontFaces_reviewFrom (open? : Option FaceOutline) (events : List Event) :
    (s.reviewFrom (open?.map s.opened) events).ShowsFontFaces s (gather open? events).2 := by
  induction events generalizing open? with
  | nil => exact .empty
  | cons e events ih =>
      obtain ⟨hopen, hreport⟩ := s.step_opened open? e
      simp only [reviewFrom, gather, hopen]
      exact hreport.append (ih _)

end Subject

/-! ## Style sheets -/

section CheckSheet

variable {o : CheckOptions} {path : String} {bytes : List UInt8} {r : Report}

/-- The report of a style sheet shows the font faces that its events gather. -/
theorem showsFontFaces_gather (h : checkSheet o path bytes = .ok r) :
    r.ShowsFontFaces ⟨path, .start, o⟩ (gather none (sheetEvents o path bytes)).2 := by
  have hreviewed := reviewed_of_checkSheet h
  have hevents :=
    Subject.showsFontFaces_reviewFrom ⟨path, .start, o⟩ none (sheetEvents o path bytes)
  constructor
  · rw [hreviewed.fontFaces]
    exact hevents.fontFaces
  · exact (hreviewed.withCode "CSS-019" (by decide) (by decide) (by decide)).trans hevents.findings

/-- **Every font face rule of a style sheet is shown as it should be, if and only if none is
disturbed.** The report then has one font face for each rule, described by the declarations directly
inside it, and finds fault with those that have none. -/
theorem checkSheet_showsFontFaces_iff (h : checkSheet o path bytes = .ok r) :
    r.ShowsFontFaces ⟨path, .start, o⟩
        ((fontFaceRules (sheetEvents o path bytes)).map FontFaceRule.outline) ↔
      ∀ f ∈ fontFaceRules (sheetEvents o path bytes), f.Undisturbed :=
  (showsFontFaces_gather h).iff_of_tallies (tallies_of_document (document_of_checkSheet h))

end CheckSheet

/-- A font face rule with one descriptor. -/
def familySheet : List UInt8 := Bytes.Utf8.encode "@font-face\x7bfont-family:a\x7d"

/-- The report of `familySheet` shows the rule and its descriptor. -/
def familyReport : Report := ⟨[], [], [⟨some "a", none, none, [], ⟨1, 1, 1, "c.css"⟩⟩]⟩

theorem checkSheet_familySheet : checkSheet .default "c.css" familySheet = .ok familyReport := by
  decide +kernel

theorem checkSheet_showsFontFaces_iff_familySheet :
    checkSheet .default "c.css" familySheet = .ok familyReport ∧
      (familyReport.ShowsFontFaces ⟨"c.css", .start, .default⟩
          ((fontFaceRules (sheetEvents .default "c.css" familySheet)).map FontFaceRule.outline) ↔
        ∀ f ∈ fontFaceRules (sheetEvents .default "c.css" familySheet), f.Undisturbed) :=
  ⟨checkSheet_familySheet, checkSheet_showsFontFaces_iff checkSheet_familySheet⟩

/-- A font face rule without declarations of its own, inside which there is another one. -/
def nestedSheet : List UInt8 := Bytes.Utf8.encode "@font-face\x7b@font-face\x7b\x7d\x7d"

/-- The report of `nestedSheet` shows the inner rule alone. -/
def nestedReport : Report :=
  ⟨[⟨.emptyFontFace, "c.css", 1, 12⟩], [], [⟨none, none, none, [], ⟨1, 12, 12, "c.css"⟩⟩]⟩

theorem checkSheet_nestedSheet : checkSheet .default "c.css" nestedSheet = .ok nestedReport := by
  decide +kernel

/-- **Not every font face rule is shown**: the outer rule of `nestedSheet` has neither a font face
nor a finding. -/
theorem not_forall_showsFontFaces :
    ¬ ∀ (o : CheckOptions) (path : String) (bytes : List UInt8) (r : Report),
      checkSheet o path bytes = .ok r →
        r.ShowsFontFaces ⟨path, .start, o⟩
          ((fontFaceRules (sheetEvents o path bytes)).map FontFaceRule.outline) := by
  intro h
  have hshows := h .default "c.css" nestedSheet nestedReport checkSheet_nestedSheet
  have hrules : (fontFaceRules (sheetEvents .default "c.css" nestedSheet)).length = 2 := by
    decide +kernel
  -- There are two rules, and the report has one font face.
  have hlength := hshows.fontFaces.length_eq
  rw [List.length_map, List.length_map, hrules] at hlength
  exact absurd hlength (by decide)

end EpubStyle
