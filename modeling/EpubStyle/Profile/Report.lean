import EpubStyle.Profile.Finding

/-!
# Reports

A `Report` lists what a check has to say: diagnostics, references to resources, and font faces.
Reports are put behind one another with `++`, which keeps the order of each list. `Report.ordered`
arranges the diagnostics by their place; those at one place keep their order.
-/

namespace EpubStyle

/-- A finding at a place in a file. -/
structure Diagnostic where
  finding : Finding
  /-- The path of the file. -/
  path : String
  line : Nat
  column : Nat
  deriving DecidableEq, Repr, Inhabited

/-- The first diagnostic does not stand behind the second. -/
def Diagnostic.notAfter (a b : Diagnostic) : Bool :=
  a.line < b.line || (a.line == b.line && a.column ≤ b.column)

/-- How a style sheet uses a resource. -/
inductive ReferenceKind where
  /-- It imports the resource. -/
  | imported
  /-- The resource is the source of a font. -/
  | font
  | url
  deriving DecidableEq, Repr, Inhabited

/-- The name of a kind of reference in reports. -/
def ReferenceKind.name : ReferenceKind → String
  | imported => "import"
  | font => "font"
  | url => "url"

/-- A use of a resource. -/
structure Reference where
  /-- The reference as written. -/
  href : String
  /-- The resource it means. -/
  resolved : String
  location : Location
  kind : ReferenceKind
  deriving DecidableEq, Repr, Inhabited

/-- The descriptors of a font face. -/
structure FontFace where
  family : Option String
  style : Option String
  weight : Option String
  /-- The resources that hold the font, in order. -/
  sources : List String
  /-- The location of the at-rule. -/
  location : Location
  deriving DecidableEq, Repr, Inhabited

/-- What a check has to say. -/
structure Report where
  diagnostics : List Diagnostic
  references : List Reference
  fontFaces : List FontFace
  deriving DecidableEq, Repr, Inhabited

namespace Report

/-- Nothing to say. -/
def empty : Report := ⟨[], [], []⟩

/-- A report of diagnostics alone. -/
def ofDiagnostics (list : List Diagnostic) : Report := { empty with diagnostics := list }

/-- A report of references alone. -/
def ofReferences (list : List Reference) : Report := { empty with references := list }

/-- A report of font faces alone. -/
def ofFontFaces (list : List FontFace) : Report := { empty with fontFaces := list }

/-- One report behind another. -/
protected def append (a b : Report) : Report :=
  ⟨a.diagnostics ++ b.diagnostics, a.references ++ b.references, a.fontFaces ++ b.fontFaces⟩

instance : Append Report := ⟨Report.append⟩

@[simp] theorem diagnostics_append (a b : Report) :
    (a ++ b).diagnostics = a.diagnostics ++ b.diagnostics := rfl

@[simp] theorem references_append (a b : Report) :
    (a ++ b).references = a.references ++ b.references := rfl

@[simp] theorem fontFaces_append (a b : Report) :
    (a ++ b).fontFaces = a.fontFaces ++ b.fontFaces := rfl

/-- Reports behind one another. -/
def join (reports : List Report) : Report := reports.foldr (· ++ ·) empty

/-- The report with its diagnostics arranged by line and column. -/
def ordered (r : Report) : Report :=
  { r with diagnostics := r.diagnostics.mergeSort Diagnostic.notAfter }

/-- Number of diagnostics of a severity. -/
def count (r : Report) (s : Severity) : Nat :=
  r.diagnostics.countP (fun d => d.finding.severity == s)

/-- There are no errors. -/
def isValid (r : Report) : Bool := r.count .error == 0

/-- There is a diagnostic with the given code. -/
def hasCode (r : Report) (code : String) : Bool :=
  r.diagnostics.any (fun d => d.finding.code == code)

end Report

end EpubStyle
