import EpubStyle.Proofs.Parse.Documents

/-!
# Font face rules

What is inside a rule is read off the events behind its start (`inside`), and so are the font face
rules of a style sheet (`fontFaceRules`). The declarations directly inside such a rule describe the
font face that it stands for, its outline.

A check has one place for an open font face, whatever rules are around it. `gather` says which font
faces this makes of the events. A font face rule is undisturbed if no rule inside it has
declarations or is a font face rule itself. A disturbed rule takes up declarations that are not its
own, or loses its place to a rule inside it. So font faces are gathered as outlined if all rules are
undisturbed, and otherwise there are fewer of them or fewer of them are empty (`Bracketed.tallies`).
-/

set_option autoImplicit false

namespace EpubStyle

/-! ## Rules in events -/

/-- The events inside a rule, up to its end. Each comes with the number of rules that are around it
and inside that rule. -/
def inside : Nat → List Event → List (Nat × Event)
  | _, [] => []
  | depth, .atRule r :: events => (depth, .atRule r) :: inside (depth + 1) events
  | depth, .selectors list :: events => (depth, .selectors list) :: inside (depth + 1) events
  | 0, .endAtRule _ :: _ | 0, .endSelectors _ :: _ => []
  | depth + 1, .endAtRule name :: events => (depth, .endAtRule name) :: inside depth events
  | depth + 1, .endSelectors list :: events => (depth, .endSelectors list) :: inside depth events
  | depth, .declaration d :: events => (depth, .declaration d) :: inside depth events
  | depth, .start :: events => (depth, .start) :: inside depth events
  | depth, .finish :: events => (depth, .finish) :: inside depth events

/-- The declaration of an event that is one. -/
def Event.declaration? : Event → Option Declaration
  | declaration d => some d
  | _ => none

/-- The declaration of an event that is directly inside a rule. -/
def directDeclaration? : Nat × Event → Option Declaration
  | (0, e) => e.declaration?
  | (_ + 1, _) => none

/-- The location of a font face and the declarations that describe it. -/
structure FaceOutline where
  location : Location
  declarations : List Declaration

/-- A font face rule: its location and the events inside it. -/
structure FontFaceRule where
  location : Location
  contents : List (Nat × Event)

namespace FontFaceRule

/-- The font face that a rule stands for: the declarations directly inside it describe it. -/
def outline (f : FontFaceRule) : FaceOutline :=
  ⟨f.location, f.contents.filterMap directDeclaration?⟩

/-- All declarations inside a rule are directly inside it, and no other font face rule is. -/
structure Undisturbed (f : FontFaceRule) : Prop where
  direct : ∀ depth d, (depth, .declaration d) ∈ f.contents → depth = 0
  single : ∀ depth r, (depth, .atRule r) ∈ f.contents → r.name ≠ "@font-face"

end FontFaceRule

/-- The font face rules that start in a list of events. -/
def fontFaceRules : List Event → List FontFaceRule
  | [] => []
  | .atRule r :: events =>
      if r.name == "@font-face" then ⟨r.location, inside 0 events⟩ :: fontFaceRules events
      else fontFaceRules events
  | _ :: events => fontFaceRules events

attribute [local simp] inside fontFaceRules

section Rules

@[simp] theorem declaration?_comp_declaration : Event.declaration? ∘ Event.declaration = some := rfl

@[simp] theorem inside_declarations (depth : Nat) (ds : List Declaration) (events : List Event) :
    inside depth (ds.map Event.declaration ++ events) =
      ds.map (fun d => (depth, Event.declaration d)) ++ inside depth events := by
  induction ds with
  | nil => rfl
  | cons d ds ih => simp [ih]

@[simp] theorem fontFaceRules_declarations (ds : List Declaration) (events : List Event) :
    fontFaceRules (ds.map Event.declaration ++ events) = fontFaceRules events := by
  induction ds with
  | nil => rfl
  | cons d ds ih => simpa using ih

/-- There are font face rules where an at-rule is one. -/
theorem fontFaceRules_eq_nil_iff {events : List Event} :
    fontFaceRules events = [] ↔ ∀ r, Event.atRule r ∈ events → r.name ≠ "@font-face" := by
  induction events with
  | nil => simp
  | cons e events ih =>
      cases e with
      | atRule r =>
          by_cases hname : r.name = "@font-face"
          · simp [hname]
          · simp [hname, ih]
      | _ => simp [ih]

/-- A block without rules disturbs nothing. -/
theorem undisturbed_declarations (l : Location) (ds : List Declaration) :
    (⟨l, ds.map (fun d => (0, Event.declaration d))⟩ : FontFaceRule).Undisturbed where
  direct := by
    intro depth d hd
    obtain ⟨d', -, heq⟩ := List.mem_map.1 hd
    cases heq
    rfl
  single := by
    intro depth r hr
    obtain ⟨d', -, heq⟩ := List.mem_map.1 hr
    cases heq

/-- The declarations of a block without rules are directly inside it. -/
theorem outline_declarations (l : Location) (ds : List Declaration) :
    (⟨l, ds.map (fun d => (0, Event.declaration d))⟩ : FontFaceRule).outline = ⟨l, ds⟩ := by
  have hall : (ds.map (fun d => (0, Event.declaration d))).filterMap directDeclaration? = ds := by
    rw [List.filterMap_map]
    exact List.filterMap_some
  simp only [FontFaceRule.outline, hall]

end Rules

namespace Bracketed

/-- Statements by their blocks: an at-rule without one is like an at-rule of no declarations. -/
@[elab_as_elim]
theorem byBlocks {motive : (events : List Event) → Bracketed events → Prop} (nil : motive [] .nil)
    (declarations : ∀ (r : AtRule) (ds : List Declaration) {rest : List Event} (h : Bracketed rest)
      (hrule : Bracketed (.atRule r :: (ds.map Event.declaration ++ .endAtRule r.name :: rest))),
      motive rest h → motive _ hrule)
    (statements : ∀ (r : AtRule) {body rest : List Event} (hbody : Bracketed body)
      (h : Bracketed rest) (hrule : Bracketed (.atRule r :: (body ++ .endAtRule r.name :: rest))),
      motive body hbody → motive rest h → motive _ hrule)
    (ruleSet : ∀ (list : List Selector) (ds : List Declaration) {rest : List Event}
      (h : Bracketed rest) (hrule : Bracketed
        (.selectors list :: (ds.map Event.declaration ++ .endSelectors list :: rest))),
      motive rest h → motive _ hrule)
    {events : List Event} (h : Bracketed events) : motive events h := by
  induction h with
  | nil => exact nil
  | bare r hblock h ih => exact declarations r [] h (.bare r hblock h) ih
  | declarations r hblock ds h ih => exact declarations r ds h (.declarations r hblock ds h) ih
  | statements r hblock hbody h ihbody ih =>
      exact statements r hbody h (.statements r hblock hbody h) ihbody ih
  | ruleSet list hlist ds h ih => exact ruleSet list ds h (.ruleSet list hlist ds h) ih

variable {body : List Event}

/-- Statements stay inside the rule that they are in. -/
theorem inside_append (h : Bracketed body) (depth : Nat) (events : List Event) :
    inside depth (body ++ events) = inside depth body ++ inside depth events := by
  induction h using byBlocks generalizing depth events with
  | nil => rfl
  | declarations r ds h _ ih => simp [ih]
  | statements r hbody h _ ihbody ih => simp [ih, ihbody]
  | ruleSet list ds h _ ih => simp [ih]

/-- All events of statements are inside the rule around them. -/
theorem map_snd_inside (h : Bracketed body) (depth : Nat) :
    (inside depth body).map Prod.snd = body := by
  induction h using byBlocks generalizing depth with
  | nil => rfl
  | declarations r ds h _ ih => simp [ih, Function.comp_def]
  | statements r hbody h _ ihbody ih => simp [hbody.inside_append, ih, ihbody]
  | ruleSet list ds h _ ih => simp [ih, Function.comp_def]

/-- Declarations do not stand among statements, but in their blocks. -/
theorem lt_of_mem_inside (h : Bracketed body) {depth n : Nat} {d : Declaration}
    (hd : (n, Event.declaration d) ∈ inside depth body) : depth < n := by
  -- The blocks inside are one deeper, so the depth is not fixed.
  induction h using byBlocks generalizing depth with
  | nil => cases hd
  | declarations r ds h _ ih | ruleSet list ds h _ ih =>
      simp only [inside, inside_declarations, List.mem_cons, List.mem_append, List.mem_map,
        Prod.mk.injEq, reduceCtorEq, and_false, false_or] at hd
      rcases hd with ⟨d', -, rfl, -⟩ | hd
      · exact Nat.lt_succ_self depth
      · exact ih hd
  | statements r hbody h _ ihbody ih =>
      simp only [inside, hbody.inside_append, List.mem_cons, List.mem_append,
        Prod.mk.injEq, reduceCtorEq, and_false, false_or] at hd
      rcases hd with hd | hd
      · exact Nat.lt_of_succ_lt (ihbody hd)
      · exact ih hd

/-- No font face rule among statements goes on behind them. -/
theorem fontFaceRules_append (h : Bracketed body) (events : List Event) :
    fontFaceRules (body ++ events) = fontFaceRules body ++ fontFaceRules events := by
  -- What is inside a rule stops at its own end, which stands before `events`.
  induction h using byBlocks generalizing events with
  | nil => rfl
  | declarations r ds h _ ih =>
      by_cases hname : r.name = "@font-face" <;> simp [hname, ih]
  | statements r hbody h _ ihbody ih =>
      by_cases hname : r.name = "@font-face" <;>
        simp [hname, ih, ihbody, hbody.inside_append]
  | ruleSet list ds h _ ih => simp [ih]

/-- No declaration is directly inside a rule that holds statements. -/
theorem outline_inside (h : Bracketed body) (l : Location) :
    (⟨l, inside 0 body⟩ : FontFaceRule).outline = ⟨l, []⟩ := by
  have hnone : (inside 0 body).filterMap directDeclaration? = [] := by
    apply List.filterMap_eq_nil_iff.2
    rintro ⟨n, e⟩ he
    cases n with
    | succ n => rfl
    | zero =>
        cases e with
        | declaration d => exact absurd (h.lt_of_mem_inside he) (Nat.lt_irrefl 0)
        | _ => rfl
  simp only [FontFaceRule.outline, hnone]

/-- A font face rule that holds statements is undisturbed if they have no declarations and no font
face rules. -/
theorem undisturbed_inside_iff (h : Bracketed body) (l : Location) :
    (⟨l, inside 0 body⟩ : FontFaceRule).Undisturbed ↔
      body.filterMap Event.declaration? = [] ∧ fontFaceRules body = [] := by
  -- Every statement is inside the rule, at some depth.
  have hmem : ∀ e, e ∈ body ↔ ∃ n, (n, e) ∈ inside 0 body := by
    intro e
    have hall : e ∈ body ↔ e ∈ (inside 0 body).map Prod.snd := by rw [h.map_snd_inside]
    rw [hall]
    simp
  rw [fontFaceRules_eq_nil_iff, List.filterMap_eq_nil_iff]
  constructor
  · intro hund
    constructor
    · intro e he
      obtain ⟨n, hn⟩ := (hmem e).1 he
      cases e with
      | declaration d =>
          have hdepth := h.lt_of_mem_inside hn
          rw [hund.direct n d hn] at hdepth
          exact absurd hdepth (Nat.lt_irrefl 0)
      | _ => rfl
    · intro r hr
      obtain ⟨n, hn⟩ := (hmem _).1 hr
      exact hund.single n r hn
  · rintro ⟨hdeclarations, hrules⟩
    constructor
    · intro n d hd
      cases hdeclarations _ ((hmem _).2 ⟨n, hd⟩)
    · intro n r hr
      exact hrules r ((hmem _).2 ⟨n, hr⟩)

end Bracketed

/-! ## Gathering font faces -/

/-- A font face that more declarations describe. -/
def FaceOutline.extend (f : FaceOutline) (ds : List Declaration) : FaceOutline :=
  ⟨f.location, f.declarations ++ ds⟩

/-- The font face that is open behind an event, and the font faces that end with it. -/
def gatherStep (open? : Option FaceOutline) : Event → Option FaceOutline × List FaceOutline
  | .atRule r => if r.name == "@font-face" then (some ⟨r.location, []⟩, []) else (open?, [])
  | .endAtRule name => if name == "@font-face" then (none, open?.toList) else (open?, [])
  | .declaration d => (open?.map (fun f => f.extend [d]), [])
  | .start | .finish | .selectors _ | .endSelectors _ => (open?, [])

/-- The font face that is open behind events, and the font faces that end among them. -/
def gather (open? : Option FaceOutline) : List Event → Option FaceOutline × List FaceOutline
  | [] => (open?, [])
  | e :: events =>
      let (next?, ended) := gatherStep open? e
      let (last?, rest) := gather next? events
      (last?, ended ++ rest)

section Gather

variable (open? : Option FaceOutline)

theorem gather_append (l m : List Event) :
    gather open? (l ++ m) =
      ((gather (gather open? l).1 m).1, (gather open? l).2 ++ (gather (gather open? l).1 m).2) := by
  induction l generalizing open? with
  | nil => rfl
  | cons e l ih => simp [gather, ih]

/-- Declarations describe what is open. -/
theorem gather_declarations (ds : List Declaration) (events : List Event) :
    gather open? (ds.map Event.declaration ++ events) =
      gather (open?.map (fun f => f.extend ds)) events := by
  induction ds generalizing open? with
  | nil => cases open? <;> simp [FaceOutline.extend]
  | cons d ds ih =>
      have hstep : gather open? ((d :: ds).map Event.declaration ++ events) =
          gather (open?.map (fun f => f.extend [d])) (ds.map Event.declaration ++ events) := rfl
      rw [hstep, ih]
      cases open? <;> simp [FaceOutline.extend]

/-- A rule set only brings its declarations. -/
theorem gather_ruleSet (list : List Selector) (ds : List Declaration) (events : List Event) :
    gather open? (.selectors list :: (ds.map Event.declaration ++ .endSelectors list :: events)) =
      gather (open?.map (fun f => f.extend ds)) events := by
  have hstep : ∀ o? : Option FaceOutline,
      gather o? (.endSelectors list :: events) = gather o? events := fun _ => rfl
  rw [← hstep, ← gather_declarations]
  rfl

/-- A font face rule takes the place of what is open, and its end leaves nothing open. -/
theorem gather_fontFaceRule {r : AtRule} (h : r.name = "@font-face") (body events : List Event) :
    gather open? (.atRule r :: (body ++ .endAtRule r.name :: events)) =
      ((gather none events).1, (gather (some ⟨r.location, []⟩) body).2 ++
        (gather (some ⟨r.location, []⟩) body).1.toList ++ (gather none events).2) := by
  have hstart : gather open? (.atRule r :: (body ++ .endAtRule r.name :: events)) =
      gather (some ⟨r.location, []⟩) (body ++ .endAtRule r.name :: events) := by
    simp [gather, gatherStep, h]
  rw [hstart, gather_append]
  simp [gather, gatherStep, h]

/-- Other at-rules only bring what is inside them. -/
theorem gather_atRule {r : AtRule} (h : r.name ≠ "@font-face") (body events : List Event) :
    gather open? (.atRule r :: (body ++ .endAtRule r.name :: events)) =
      gather open? (body ++ events) := by
  have hstart : gather open? (.atRule r :: (body ++ .endAtRule r.name :: events)) =
      gather open? (body ++ .endAtRule r.name :: events) := by
    simp [gather, gatherStep, h]
  rw [hstart, gather_append, gather_append]
  simp [gather, gatherStep, h]

end Gather

namespace Bracketed

variable {body : List Event}

/-- Statements leave nothing open. -/
theorem fst_gather_none (h : Bracketed body) : (gather none body).1 = none := by
  induction h using byBlocks with
  | nil => rfl
  | declarations r ds h _ ih =>
      by_cases hname : r.name = "@font-face"
      · rw [gather_fontFaceRule _ hname]
        exact ih
      · rw [gather_atRule _ hname, gather_declarations]
        exact ih
  | statements r hbody h _ ihbody ih =>
      by_cases hname : r.name = "@font-face"
      · rw [gather_fontFaceRule _ hname]
        exact ih
      · -- Its block leaves nothing open to what stands behind.
        rw [gather_atRule _ hname, gather_append, ihbody]
        exact ih
  | ruleSet list ds h _ ih =>
      rw [gather_ruleSet]
      exact ih

/-- Without font face rules, all declarations describe what is open. -/
theorem gather_of_rules_eq_nil (h : Bracketed body) (hrules : fontFaceRules body = [])
    (open? : Option FaceOutline) :
    gather open? body =
      (open?.map (fun f => f.extend (body.filterMap Event.declaration?)), []) := by
  -- No at-rule takes the place of what is open.
  rw [fontFaceRules_eq_nil_iff] at hrules
  induction h using byBlocks generalizing open? with
  | nil => cases open? <;> simp [gather, FaceOutline.extend]
  | declarations r ds h _ ih =>
      rw [gather_atRule _ (hrules r (by simp)), gather_declarations,
        ih (fun r' hr' => hrules r' (by simp [hr']))]
      cases open? <;> simp [FaceOutline.extend, List.filterMap_cons, Event.declaration?]
  | statements r hbody h _ ihbody ih =>
      rw [gather_atRule _ (hrules r (by simp)), gather_append,
        ihbody (fun r' hr' => hrules r' (by simp [hr'])),
        ih (fun r' hr' => hrules r' (by simp [hr']))]
      cases open? <;> simp [FaceOutline.extend, List.filterMap_cons, Event.declaration?]
  | ruleSet list ds h _ ih =>
      rw [gather_ruleSet, ih (fun r' hr' => hrules r' (by simpa using hr'))]
      cases open? <;> simp [FaceOutline.extend, List.filterMap_cons, Event.declaration?]

/-- With font face rules, what is open is lost. -/
theorem gather_of_rules_ne_nil (h : Bracketed body) (hrules : fontFaceRules body ≠ [])
    (open? : Option FaceOutline) : gather open? body = gather none body := by
  induction h using byBlocks generalizing open? with
  | nil => exact absurd rfl hrules
  | declarations r ds h _ ih =>
      by_cases hname : r.name = "@font-face"
      · rw [gather_fontFaceRule _ hname, gather_fontFaceRule _ hname]
      · rw [gather_atRule _ hname, gather_atRule _ hname, gather_declarations, gather_declarations]
        exact ih (by simpa [hname] using hrules) _
  | @statements r body rest hbody h _ ihbody ih =>
      by_cases hname : r.name = "@font-face"
      · rw [gather_fontFaceRule _ hname, gather_fontFaceRule _ hname]
      · rw [gather_atRule _ hname, gather_atRule _ hname, gather_append, gather_append]
        -- What is open is lost inside the block, or else behind it.
        by_cases hinside : fontFaceRules body = []
        · have hbehind : fontFaceRules rest ≠ [] := by
            simpa [hname, hbody.fontFaceRules_append, hinside] using hrules
          rw [hbody.gather_of_rules_eq_nil hinside, hbody.gather_of_rules_eq_nil hinside,
            ih hbehind, ih hbehind (none.map _)]
        · rw [ihbody hinside open?]
  | ruleSet list ds h _ ih =>
      rw [gather_ruleSet, gather_ruleSet]
      exact ih (by simpa using hrules) _

end Bracketed

/-! ## What becomes of the rules -/

/-- Number of font faces and of findings about them. -/
def FaceOutline.weight (faces : List FaceOutline) : Nat :=
  faces.length + faces.countP (fun f => f.declarations.isEmpty)

theorem FaceOutline.weight_append (l m : List FaceOutline) :
    weight (l ++ m) = weight l + weight m := by
  simp only [weight, List.length_append, List.countP_append]
  omega

/-- Font faces are those of the rules if these are undisturbed, and else weigh less. -/
inductive Tallies : List FontFaceRule → List FaceOutline → Prop
  | undisturbed {rules : List FontFaceRule} (h : ∀ f ∈ rules, f.Undisturbed) :
      Tallies rules (rules.map FontFaceRule.outline)
  | disturbed {rules : List FontFaceRule} {faces : List FaceOutline}
      (h : ¬ ∀ f ∈ rules, f.Undisturbed)
      (hless : FaceOutline.weight faces < FaceOutline.weight (rules.map FontFaceRule.outline)) :
      Tallies rules faces

namespace Tallies

variable {rules rules' : List FontFaceRule} {faces faces' : List FaceOutline}

theorem weight_le (h : Tallies rules faces) :
    FaceOutline.weight faces ≤ FaceOutline.weight (rules.map FontFaceRule.outline) := by
  cases h with
  | undisturbed h => exact Nat.le_refl _
  | disturbed h hless => exact Nat.le_of_lt hless

theorem append (h : Tallies rules faces) (h' : Tallies rules' faces') :
    Tallies (rules ++ rules') (faces ++ faces') := by
  have hle := h.weight_le
  have hle' := h'.weight_le
  have hboth : (∀ f ∈ rules ++ rules', f.Undisturbed) ↔
      (∀ f ∈ rules, f.Undisturbed) ∧ ∀ f ∈ rules', f.Undisturbed := by
    simp only [List.mem_append, or_imp, forall_and]
  -- Rules are undisturbed together only if all of them are; weights add up.
  cases h with
  | undisturbed hall =>
      cases h' with
      | undisturbed hall' =>
          rw [← List.map_append]
          exact .undisturbed (hboth.2 ⟨hall, hall'⟩)
      | disturbed hnot hless =>
          refine .disturbed (fun h => hnot (hboth.1 h).2) ?_
          rw [List.map_append, FaceOutline.weight_append, FaceOutline.weight_append]
          omega
  | disturbed hnot hless =>
      refine .disturbed (fun h => hnot (hboth.1 h).1) ?_
      rw [List.map_append, FaceOutline.weight_append, FaceOutline.weight_append]
      omega

/-- A font face rule of declarations has the font face that it stands for. -/
theorem declarations (l : Location) (ds : List Declaration) :
    Tallies [⟨l, ds.map (fun d => (0, Event.declaration d))⟩] [⟨l, ds⟩] := by
  have hund : ∀ f ∈ [(⟨l, ds.map (fun d => (0, .declaration d))⟩ : FontFaceRule)],
      f.Undisturbed := by
    simpa using undisturbed_declarations l ds
  rw [← outline_declarations]
  exact .undisturbed hund

end Tallies

namespace Bracketed

variable {body : List Event}

/-- What becomes of a font face rule that holds statements. -/
theorem tallies_statements (h : Bracketed body) (l : Location)
    (hbody : Tallies (fontFaceRules body) (gather none body).2) :
    Tallies (⟨l, inside 0 body⟩ :: fontFaceRules body)
      ((gather (some ⟨l, []⟩) body).2 ++ (gather (some ⟨l, []⟩) body).1.toList) := by
  -- By what is directly inside the rule, it should be found empty.
  have hweight : FaceOutline.weight ((⟨l, inside 0 body⟩ :: fontFaceRules body).map
      FontFaceRule.outline) =
        2 + FaceOutline.weight ((fontFaceRules body).map FontFaceRule.outline) := by
    simp only [List.map_cons, h.outline_inside]
    exact FaceOutline.weight_append [_] _
  have hund := h.undisturbed_inside_iff l
  by_cases hrules : fontFaceRules body = []
  · rw [h.gather_of_rules_eq_nil hrules]
    by_cases hnone : body.filterMap Event.declaration? = []
    · have htally : Tallies [⟨l, inside 0 body⟩] ([⟨l, inside 0 body⟩].map FontFaceRule.outline) :=
        .undisturbed (by simpa using hund.2 ⟨hnone, hrules⟩)
      simpa [h.outline_inside, FaceOutline.extend, hnone, hrules] using htally
    · -- Declarations inside its statements count as its own.
      have hone : FaceOutline.weight [⟨l, body.filterMap Event.declaration?⟩] = 1 := by
        simp [FaceOutline.weight, hnone]
      refine .disturbed (fun hall => hnone (hund.1 (hall _ (by simp))).1) ?_
      rw [hweight]
      calc FaceOutline.weight [⟨l, body.filterMap Event.declaration?⟩] = 1 := hone
        _ < _ := by omega
  · -- It loses its place to a rule inside it.
    rw [h.gather_of_rules_ne_nil hrules, h.fst_gather_none, Option.toList_none, List.append_nil]
    refine .disturbed (fun hall => hrules (hund.1 (hall _ (by simp))).2) ?_
    have hle := hbody.weight_le
    rw [hweight]
    omega

/-- **What becomes of font face rules.** -/
theorem tallies (h : Bracketed body) : Tallies (fontFaceRules body) (gather none body).2 := by
  induction h using byBlocks with
  | nil => exact .undisturbed (List.forall_mem_nil _)
  | declarations r ds h _ ih =>
      by_cases hname : r.name = "@font-face"
      · have hrule := (Tallies.declarations r.location ds).append ih
        have hfaces := gather_declarations (some ⟨r.location, []⟩) ds []
        rw [List.append_nil] at hfaces
        rw [gather_fontFaceRule _ hname, hfaces]
        simpa [hname, gather, FaceOutline.extend] using hrule
      · rw [gather_atRule _ hname, gather_declarations]
        simpa [hname] using ih
  | statements r hbody h _ ihbody ih =>
      by_cases hname : r.name = "@font-face"
      · rw [gather_fontFaceRule _ hname]
        simpa [hname, hbody.inside_append, hbody.fontFaceRules_append] using
          (hbody.tallies_statements r.location ihbody).append ih
      · rw [gather_atRule _ hname, gather_append, hbody.fst_gather_none]
        simpa [hname, hbody.fontFaceRules_append] using ihbody.append ih
  | ruleSet list ds h _ ih =>
      rw [gather_ruleSet]
      simpa using ih

end Bracketed

/-- What becomes of the font face rules of a document. -/
theorem tallies_of_document {events : List Event} (h : Grammar.sheet.Document events) :
    Tallies (fontFaceRules events) (gather none events).2 := by
  obtain ⟨body, hbody, rfl⟩ := h
  have hrules : fontFaceRules (.start :: (body ++ [.finish])) = fontFaceRules body := by
    simp [hbody.fontFaceRules_append]
  have hfaces : (gather none (.start :: (body ++ [.finish]))).2 = (gather none body).2 := by
    have hstart : gather none (.start :: (body ++ [.finish])) = gather none (body ++ [.finish]) :=
      rfl
    rw [hstart, gather_append]
    simp [gather, gatherStep]
  rw [hrules, hfaces]
  exact hbody.tallies

end EpubStyle
