import Mathlib.Data.List.Induction
import Mathlib.Data.List.TakeWhile
import EpubStyle.Profile.Href

/-!
# Resolved references

The path of a resource is made by walking along the segments of a reference behind the directory of
its style sheet, with a stack of the segments passed (`Href.walk`). What the walk leaves is a normal
path: no segment stays in place, and those that leave a directory come first
(`Href.normal_stack`). A normal path is walked along as it is (`Href.walk_of_normal`), so resolving
twice is resolving once.

The root of an absolute path is its empty first segment, and a walk cancels it like any other
segment. `resolve_normal` says when the path that is left starts at a root: an empty segment must be
left at the bottom of the stack, with a segment on top of it. That is so exactly if what stands
before it cancels out and what stands behind it never climbs above it and ends below it (`Rooted`).
A reference that climbs above the root, or ends there, loses it (`not_forall_rooted`).
-/

set_option autoImplicit false

namespace EpubStyle.Href

/-! ## Segments -/

/-- Segments are cut at the slashes. -/
theorem segments_eq_splitOn (cs : List Char) : segments cs = cs.splitOn '/' := by
  induction cs with
  | nil => rfl
  | cons c cs ih =>
      simp only [segments, ih, List.splitOn, List.splitOnP_cons_eq_if_modifyHead]
      split
      · rfl
      · have hne := List.splitOnP_ne_nil (· == '/') cs
        obtain ⟨first, rest, hsplit⟩ := List.exists_cons_of_ne_nil hne
        rw [hsplit]
        rfl

/-- Joining puts slashes between segments. -/
theorem join_eq_intercalate (path : List (List Char)) : join path = ['/'].intercalate path := by
  induction path with
  | nil => rfl
  | cons s rest ih =>
      cases rest with
      | nil => simp [join]
      | cons t rest => simp [join, ih, List.intercalate]

theorem join_segments (cs : List Char) : join (segments cs) = cs := by
  rw [segments_eq_splitOn, join_eq_intercalate, List.intercalate_splitOn]

theorem segments_join {path : List (List Char)} (h : ∀ s ∈ path, '/' ∉ s) (hne : path ≠ []) :
    segments (join path) = path := by
  rw [segments_eq_splitOn, join_eq_intercalate, List.splitOn_intercalate _ h hne]

theorem segments_append (cs ds : List Char) :
    segments (cs ++ '/' :: ds) = segments cs ++ segments ds := by
  simp only [segments_eq_splitOn]
  exact List.splitOnP_append_cons _ _ rfl

theorem segments_of_not_mem {cs : List Char} (h : '/' ∉ cs) : segments cs = [cs] :=
  @segments_join [cs] (by simpa using h) (by simp)

/-- No segment holds a slash. -/
theorem slash_not_mem_segments (cs : List Char) : ∀ s ∈ segments cs, '/' ∉ s := by
  induction cs with
  | nil => simp [segments]
  | cons c cs ih =>
      rw [segments]
      split
      · exact List.forall_mem_cons.2 ⟨List.not_mem_nil, ih⟩
      · next hc =>
          have hne : '/' ≠ c := fun heq => hc (by simp [← heq])
          cases hsegments : segments cs with
          | nil => simpa using hne
          | cons first rest =>
              rw [hsegments, List.forall_mem_cons] at ih
              exact List.forall_mem_cons.2 ⟨by simp [hne, ih.1], ih.2⟩

/-- The directory of a path is looked for from its end on, and a name holds no slash. -/
theorem bne_slash_of_mem_reverse {name : List Char} (h : '/' ∉ name) :
    ∀ c ∈ name.reverse, (c != '/') = true := by
  intro c hc
  rw [bne_iff_ne]
  rintro rfl
  exact h (List.mem_reverse.1 hc)

/-- The directory of a path is what stands before its last slash. -/
theorem directory?_append (directory : List Char) {name : List Char} (h : '/' ∉ name) :
    directory? (directory ++ '/' :: name) = some directory := by
  have hdrop : (directory ++ '/' :: name).reverse.dropWhile (· != '/') =
      '/' :: directory.reverse := by
    rw [List.reverse_append, List.reverse_cons, List.append_assoc,
      List.dropWhile_append_of_pos (bne_slash_of_mem_reverse h)]
    rfl
  unfold directory?
  rw [hdrop]
  simp

theorem directory?_of_not_mem {path : List Char} (h : '/' ∉ path) : directory? path = none := by
  rw [directory?, List.dropWhile_eq_nil_iff.2 (bne_slash_of_mem_reverse h)]

/-- The directory of a path has all its segments but the last one. -/
theorem segments_behind (base href : List Char) :
    segments (behind base href) = (segments base).dropLast ++ segments href := by
  by_cases hslash : '/' ∈ base
  · obtain ⟨name, directory, hbase, hname⟩ :=
      List.eq_append_cons_of_mem (List.mem_reverse.2 hslash)
    obtain rfl : base = directory.reverse ++ '/' :: name.reverse := by
      rw [← List.reverse_reverse base, hbase]
      simp
    rw [← List.mem_reverse] at hname
    rw [behind, directory?_append _ hname, segments_append, segments_append,
      segments_of_not_mem hname, List.dropLast_concat]
  · rw [behind, directory?_of_not_mem hslash, segments_of_not_mem hslash]
    rfl

/-! ## Normal paths -/

/-- The stack of segments passed, latest first, behind one more segment. -/
def push (passed : List (List Char)) (segment : List Char) : List (List Char) :=
  if segment == here then passed
  else if segment == parent && passed.head?.any (· != parent) then passed.tail
  else segment :: passed

/-- The stack behind a path. -/
def stack (path : List (List Char)) : List (List Char) := path.foldl push []

/-- A walk keeps such a stack. -/
theorem walk_eq (passed path : List (List Char)) :
    walk passed path = (path.foldl push passed).reverse := by
  induction path generalizing passed with
  | nil => rfl
  | cons s rest ih =>
      simp only [walk, List.foldl_cons, ← ih, push]
      split
      · rfl
      · split <;> rfl

theorem walk_nil_eq (path : List (List Char)) : walk [] path = (stack path).reverse :=
  walk_eq [] path

theorem stack_concat (path : List (List Char)) (s : List Char) :
    stack (path ++ [s]) = push (stack path) s := by
  rw [stack, List.foldl_append]
  rfl

/-- What one segment does to the stack. -/
inductive Pushes (passed : List (List Char)) : List Char → List (List Char) → Prop
  | stays : Pushes passed here passed
  | leaves (name : List Char) (below : List (List Char)) (hpassed : passed = name :: below)
      (hname : name ≠ parent) : Pushes passed parent below
  | climbs (h : ∀ s ∈ passed.head?, s = parent) : Pushes passed parent (parent :: passed)
  | enters (name : List Char) (hhere : name ≠ here) (hparent : name ≠ parent) :
      Pushes passed name (name :: passed)

theorem pushes_push (passed : List (List Char)) (s : List Char) :
    Pushes passed s (push passed s) := by
  unfold push
  split
  · next h =>
      obtain rfl := beq_iff_eq.1 h
      exact .stays
  · next hhere =>
      rw [beq_iff_eq] at hhere
      by_cases hs : s = parent
      · subst hs
        cases passed with
        | nil => exact .climbs (by simp)
        | cons t below =>
            by_cases ht : t = parent
            · simpa [ht] using @Pushes.climbs (parent :: below) (by simp)
            · simpa [ht] using Pushes.leaves t below rfl ht
      · simpa [hs] using Pushes.enters s hhere hs

/-- No segment stays in place, and those that leave a directory come first. -/
structure Normal (path : List (List Char)) : Prop where
  here_not_mem : here ∉ path
  parents_first : ∃ n names, path = List.replicate n parent ++ names ∧ parent ∉ names

/-- On a stack the segments that leave a directory are at the bottom. -/
theorem normal_reverse_iff {stack : List (List Char)} :
    Normal stack.reverse ↔ here ∉ stack ∧
      ∃ names n, stack = names ++ List.replicate n parent ∧ parent ∉ names := by
  constructor
  · rintro ⟨hhere, n, names, hstack, hnames⟩
    refine ⟨by simpa using hhere, names.reverse, n, ?_, by simpa using hnames⟩
    rw [← List.reverse_reverse stack, hstack]
    simp
  · rintro ⟨hhere, names, n, rfl, hnames⟩
    exact ⟨mt List.mem_reverse.1 hhere, n, names.reverse, by simp, by simpa using hnames⟩

/-- **A walk leaves a normal path.** -/
theorem normal_stack (path : List (List Char)) : Normal (stack path).reverse := by
  rw [normal_reverse_iff]
  induction path using List.reverseRecOn with
  | nil => exact ⟨List.not_mem_nil, [], 0, rfl, List.not_mem_nil⟩
  | append_singleton path s ih =>
      obtain ⟨hhere, names, n, hpath, hnames⟩ := ih
      rw [stack_concat]
      generalize push (stack path) s = pushed, pushes_push (stack path) s = h
      rw [hpath] at h hhere
      cases h with
      | stays => exact ⟨hhere, names, n, rfl, hnames⟩
      | leaves t below hstack ht =>
          -- What is left was passed in a directory, so it is no parent.
          cases names with
          | nil =>
              cases n with
              | zero => cases hstack
              | succ n => exact absurd (List.cons.inj hstack).1.symm ht
          | cons t names =>
              obtain ⟨rfl, rfl⟩ := List.cons.inj hstack
              exact ⟨fun hmem => hhere (List.mem_cons_of_mem _ hmem), names, n, rfl,
                fun hmem => hnames (List.mem_cons_of_mem _ hmem)⟩
      | climbs hhead =>
          cases names with
          | nil =>
              refine ⟨?_, [], n + 1, rfl, List.not_mem_nil⟩
              rw [List.mem_cons, not_or]
              exact ⟨by decide, hhere⟩
          | cons t names =>
              obtain rfl := hhead t rfl
              exact absurd (List.mem_cons_self ..) hnames
      | enters _ hs hname =>
          refine ⟨?_, s :: names, n, rfl, ?_⟩
          · rw [List.mem_cons, not_or]
            exact ⟨Ne.symm hs, hhere⟩
          · rw [List.mem_cons, not_or]
            exact ⟨Ne.symm hname, hnames⟩

/-- Parents are passed one by one. -/
theorem foldl_push_parents (n : Nat) :
    (List.replicate n parent).foldl push [] = List.replicate n parent := by
  induction n with
  | zero => rfl
  | succ n ih =>
      have hpush : push (List.replicate n parent) parent = List.replicate (n + 1) parent := by
        cases n <;> rfl
      rw [List.replicate_succ', List.foldl_append, ih, ← List.replicate_succ']
      exact hpush

/-- Names are passed one by one. -/
theorem foldl_push_names {names : List (List Char)} (h : ∀ s ∈ names, s ≠ here ∧ s ≠ parent)
    (passed : List (List Char)) : names.foldl push passed = names.reverse ++ passed := by
  induction names generalizing passed with
  | nil => rfl
  | cons s names ih =>
      obtain ⟨⟨hhere, hparent⟩, hnames⟩ := List.forall_mem_cons.1 h
      have hpush : push passed s = s :: passed := by simp [push, hhere, hparent]
      rw [List.foldl_cons, hpush, ih hnames]
      simp

/-- **A normal path is walked along as it is.** -/
theorem walk_of_normal {path : List (List Char)} (h : Normal path) : walk [] path = path := by
  obtain ⟨hhere, n, names, rfl, hnames⟩ := h
  have hall : ∀ s ∈ names, s ≠ here ∧ s ≠ parent := by
    intro s hs
    constructor
    · rintro rfl
      exact hhere (List.mem_append_right _ hs)
    · rintro rfl
      exact hnames hs
  rw [walk_eq, List.foldl_append, foldl_push_parents, foldl_push_names hall]
  simp

/-! ## Roots -/

/-- The segment enters a directory or names a resource. -/
def isName (s : List Char) : Bool := s != here && s != parent

/-- The path never leaves the directory in which it starts. -/
def Inside (path : List (List Char)) : Prop :=
  ∀ front, front <+: path → front.count parent ≤ front.countP isName

theorem inside_nil : Inside [] := by
  intro front hfront
  rw [List.prefix_nil.1 hfront]
  exact Nat.le_refl _

theorem inside_concat_iff {path : List (List Char)} {s : List Char} :
    Inside (path ++ [s]) ↔
      Inside path ∧ (path ++ [s]).count parent ≤ (path ++ [s]).countP isName := by
  constructor
  · intro h
    exact ⟨fun front hfront => h front (hfront.trans (List.prefix_append ..)),
      h _ (List.prefix_refl _)⟩
  · rintro ⟨hpath, hwhole⟩ front hfront
    rcases List.prefix_concat_iff.1 hfront with rfl | hfront
    · exact hwhole
    · exact hpath front hfront

/-- **The stack of a path that stays inside** holds the directories that it has entered and not
left; a path that does not stay inside leaves a parent on it. -/
theorem stack_of_inside (path : List (List Char)) :
    (parent ∉ stack path ↔ Inside path) ∧
      (Inside path → (stack path).length + path.count parent = path.countP isName) := by
  induction path using List.reverseRecOn with
  | nil => exact ⟨iff_of_true List.not_mem_nil inside_nil, fun _ => rfl⟩
  | append_singleton path s ih =>
      obtain ⟨hmem, hlength⟩ := ih
      rw [stack_concat, inside_concat_iff, List.count_append, List.countP_append, ← hmem]
      rw [← hmem] at hlength
      generalize push (stack path) s = pushed, pushes_push (stack path) s = h
      -- The stack grows with a name and shrinks with a parent, until the path leaves the directory.
      suffices hkept :
          ((parent ∉ pushed ↔ parent ∉ stack path) ∧
            pushed.length + [s].count parent = (stack path).length + [s].countP isName) ∨
          (parent ∈ pushed ∧ ¬ (parent ∉ stack path ∧
            path.count parent + [s].count parent ≤ path.countP isName + [s].countP isName)) by
        rcases hkept with ⟨hbelow, hdepth⟩ | ⟨hparent, houtside⟩
        · constructor
          · rw [hbelow]
            refine (and_iff_left_of_imp fun hinside => ?_).symm
            have hcounts := hlength hinside
            omega
          · rintro ⟨hinside, -⟩
            have hcounts := hlength hinside
            omega
        · exact ⟨iff_of_false (not_not_intro hparent) houtside, fun h => absurd h houtside⟩
      have hparent : [parent].count parent = 1 ∧ [parent].countP isName = 0 := by decide
      cases h with
      | stays => exact .inl ⟨Iff.rfl, rfl⟩
      | leaves t _ hstack ht =>
          refine .inl ⟨by simp [hstack, Ne.symm ht], ?_⟩
          rw [hstack, hparent.1, hparent.2]
          rfl
      | climbs hhead =>
          refine .inr ⟨List.mem_cons_self .., ?_⟩
          rw [hparent.1, hparent.2]
          rintro ⟨hnot, hcounts⟩
          -- Inside, the stack is empty here, so the path is back where it started.
          have hempty : stack path = [] := by
            cases hstack : stack path with
            | nil => rfl
            | cons t below =>
                rw [hstack] at hhead hnot
                obtain rfl := hhead t rfl
                exact absurd (List.mem_cons_self ..) hnot
          have hequal := hlength hnot
          rw [hempty, List.length_nil] at hequal
          omega
      | enters _ hs hname =>
          have hcount : [s].count parent = 0 ∧ [s].countP isName = 1 := by
            simp [isName, hs, hname]
          refine .inl ⟨by simp [Ne.symm hname], ?_⟩
          rw [hcount.1, hcount.2]
          rfl

/-- Where a path is that stays inside does not depend on what was passed before it. -/
theorem foldl_push_of_inside {path : List (List Char)} (h : Inside path)
    (passed : List (List Char)) : path.foldl push passed = stack path ++ passed := by
  induction path using List.reverseRecOn with
  | nil => rfl
  | append_singleton path s ih =>
      have hnot := (stack_of_inside (path ++ [s])).1.2 h
      rw [stack_concat] at hnot ⊢
      rw [List.foldl_append, ih (inside_concat_iff.1 h).1, List.foldl_cons, List.foldl_nil]
      generalize push (stack path) s = pushed, pushes_push (stack path) s = hpushed at hnot
      cases hpushed with
      | stays => simp [push]
      | leaves t _ hstack ht =>
          rw [hstack]
          simp [push, ht, show parent ≠ here by decide]
      | climbs hhead => exact absurd (List.mem_cons_self ..) hnot
      | enters _ hs hname => simp [push, hs, hname]

/-- The path comes back to the directory in which it starts and has never left it. -/
def Level (path : List (List Char)) : Prop :=
  Inside path ∧ path.count parent = path.countP isName

/-- The path never leaves the directory in which it starts and ends below it. -/
def Inward (path : List (List Char)) : Prop :=
  Inside path ∧ path.count parent < path.countP isName

theorem stack_eq_nil_iff {path : List (List Char)} : stack path = [] ↔ Level path := by
  obtain ⟨hmem, hlength⟩ := stack_of_inside path
  constructor
  · intro hstack
    have hinside : Inside path := by
      rw [← hmem, hstack]
      exact List.not_mem_nil
    have hcounts := hlength hinside
    rw [hstack, List.length_nil] at hcounts
    exact ⟨hinside, by omega⟩
  · rintro ⟨hinside, hequal⟩
    have hcounts := hlength hinside
    exact List.length_eq_zero_iff.1 (by omega)

/-- The segment `s` was passed on an empty stack and is left on it, below the segments `above`. -/
def Bottom (path : List (List Char)) (s : List Char) (above : List (List Char)) : Prop :=
  ∃ before after, path = before ++ s :: after ∧ Level before ∧ Inside after ∧ stack after = above

/-- One more segment changes what is above the bottom. -/
theorem Bottom.concat {path above pushed : List (List Char)} {s t : List Char}
    (h : Bottom path s above) (hpush : push above t = pushed) (hparent : parent ∉ pushed) :
    Bottom (path ++ [t]) s pushed := by
  obtain ⟨before, after, rfl, hbefore, -, rfl⟩ := h
  rw [← stack_concat] at hpush
  rw [← hpush] at hparent
  exact ⟨before, after ++ [t], by simp, hbefore, (stack_of_inside _).1.1 hparent, hpush⟩

theorem Bottom.parent_not_mem {path above : List (List Char)} {s : List Char}
    (h : Bottom path s above) : parent ∉ above := by
  obtain ⟨before, after, -, -, hafter, rfl⟩ := h
  exact (stack_of_inside after).1.2 hafter

/-- **The bottom of the stack** is what was passed on an empty stack for the last time. -/
theorem stack_eq_concat_iff {path above : List (List Char)} {s : List Char}
    (hs : isName s = true) : stack path = above ++ [s] ↔ Bottom path s above := by
  obtain ⟨hhere, hparent⟩ : s ≠ here ∧ s ≠ parent := by simpa [isName] using hs
  constructor
  · intro h
    induction path using List.reverseRecOn generalizing above with
    | nil => simp [stack] at h
    | append_singleton path t ih =>
        rw [stack_concat] at h
        generalize push (stack path) t = pushed, pushes_push (stack path) t = hpushed at h
        cases hpushed with
        | stays =>
            have hbottom := ih h
            exact hbottom.concat (by simp [push]) hbottom.parent_not_mem
        | leaves name _ hstack hname =>
            rw [h, ← List.cons_append] at hstack
            have hbottom := ih hstack
            apply hbottom.concat
            · simp [push, hname, show parent ≠ here by decide]
            · exact fun hmem => hbottom.parent_not_mem (List.mem_cons_of_mem _ hmem)
        | climbs hhead =>
            -- The segment below would be a parent, and so would all others down to the bottom.
            cases above with
            | nil => exact absurd (List.cons.inj h).1.symm hparent
            | cons name above =>
                have hstack := (List.cons.inj h).2
                have hbottom := ih hstack
                rw [hstack] at hhead
                cases above with
                | nil => exact absurd (hhead s rfl) hparent
                | cons name' above =>
                    obtain rfl := hhead name' rfl
                    exact absurd (List.mem_cons_self ..) hbottom.parent_not_mem
        | enters _ ht hname =>
            cases above with
            | nil =>
                obtain ⟨rfl, hstack⟩ := List.cons.inj h
                exact ⟨path, [], rfl, stack_eq_nil_iff.1 hstack, inside_nil, rfl⟩
            | cons name above =>
                obtain ⟨rfl, hstack⟩ := List.cons.inj h
                have hbottom := ih hstack
                apply hbottom.concat
                · simp [push, ht, hname]
                · rw [List.mem_cons, not_or]
                  exact ⟨Ne.symm hname, hbottom.parent_not_mem⟩
  · rintro ⟨before, after, rfl, hbefore, hafter, rfl⟩
    have hpush : push [] s = [s] := by simp [push, hhere]
    rw [stack, List.foldl_append, List.foldl_cons, ← stack, stack_eq_nil_iff.2 hbefore, hpush,
      foldl_push_of_inside hafter]

/-- An empty segment is the root of what is left: what stands before it comes back to where it
started, and what stands behind it never climbs above it and ends below it. -/
def Rooted (path : List (List Char)) : Prop :=
  ∃ before after, path = before ++ [] :: after ∧ Level before ∧ Inward after

/-- A path is left that starts with an empty segment and goes on. -/
theorem exists_walk_iff (path : List (List Char)) :
    (∃ s rest, walk [] path = [] :: s :: rest) ↔ Rooted path := by
  have hempty : isName [] = true := by decide
  rw [walk_nil_eq]
  constructor
  · rintro ⟨s, rest, hwalk⟩
    have hstack : stack path = (s :: rest).reverse ++ [[]] := by
      rw [← List.reverse_reverse (stack path), hwalk, List.reverse_cons]
    obtain ⟨before, after, hpath, hbefore, hafter, habove⟩ := (stack_eq_concat_iff hempty).1 hstack
    have hcounts := (stack_of_inside after).2 hafter
    rw [habove] at hcounts
    simp only [List.length_reverse, List.length_cons] at hcounts
    exact ⟨before, after, hpath, hbefore, hafter, by omega⟩
  · rintro ⟨before, after, hpath, hbefore, hafter, hcounts⟩
    have hstack := (stack_eq_concat_iff hempty).2 ⟨before, after, hpath, hbefore, hafter, rfl⟩
    have hlength := (stack_of_inside after).2 hafter
    obtain ⟨s, rest, hrest⟩ := List.exists_cons_of_ne_nil
      (List.ne_nil_of_length_pos (l := (stack after).reverse) (by rw [List.length_reverse]; omega))
    exact ⟨s, rest, by rw [hstack, List.reverse_append, hrest]; rfl⟩

/-! ## Resolving -/

/-- Nothing is on the stack but segments of the path. -/
theorem mem_of_mem_stack {path : List (List Char)} {s : List Char} (h : s ∈ stack path) :
    s ∈ path := by
  induction path using List.reverseRecOn with
  | nil => cases h
  | append_singleton path t ih =>
      rw [stack_concat] at h
      generalize push (stack path) t = pushed, pushes_push (stack path) t = hpushed at h
      cases hpushed with
      | stays => exact List.mem_append_left _ (ih h)
      | leaves name _ hstack hname =>
          exact List.mem_append_left _ (ih (hstack ▸ List.mem_cons_of_mem _ h))
      | climbs hhead | enters _ ht hname =>
          rcases List.mem_cons.1 h with rfl | h
          · exact List.mem_append_right _ (List.mem_singleton_self _)
          · exact List.mem_append_left _ (ih h)

/-- A joined path starts with a slash if its first segment is empty and not the only one. -/
theorem head?_join_iff {path : List (List Char)} (h : ∀ s ∈ path, '/' ∉ s) :
    (join path).head? = some '/' ↔ ∃ s rest, path = [] :: s :: rest := by
  have hfirst : ∀ {c : Char} {cs : List Char}, c :: cs ∈ path → c ≠ '/' := by
    rintro c cs hmem rfl
    exact h _ hmem (List.mem_cons_self ..)
  match path with
  | [] => simp [join]
  | [[]] => simp [join]
  | [c :: cs] => simp [join, hfirst (List.mem_cons_self ..)]
  | [] :: s :: rest => simp [join]
  | (c :: cs) :: s :: rest => simp [join, hfirst (List.mem_cons_self ..)]

/-- The segments of a joined normal path make up a normal path. -/
theorem normal_segments_join {path : List (List Char)} (h : Normal path)
    (hslash : ∀ s ∈ path, '/' ∉ s) : Normal (segments (join path)) := by
  by_cases hne : path = []
  · subst hne
    exact ⟨by decide, 0, [[]], rfl, by decide⟩
  · rwa [segments_join hslash hne]

/-- A resource without a directory in front is what its segments lead to. -/
theorem resolve_of_normal {base href : String} (hbase : '/' ∉ base.toList)
    (h : Normal (segments href.toList)) : resolve base href = href := by
  unfold resolve
  split
  · rfl
  · rw [behind, directory?_of_not_mem hbase]
    simp only
    rw [walk_of_normal h, join_segments, String.ofList_toList]

/-- **A resolved reference is a normal path.** It starts with a slash exactly if a root is left of
the segments of the directory and of the reference, as it is if the directory starts at the root and
the segments behind the root never climb above it and end below it. Resolved again, it stays. -/
theorem resolve_normal {base href : String} (h : isAbsolute href.toList = false) :
    let path := (segments base.toList).dropLast ++ segments href.toList
    Normal (segments (resolve base href).toList) ∧
      ((resolve base href).toList.head? = some '/' ↔ Rooted path) ∧
      (base.toList.head? = some '/' → path.head? = some [] ∧ (Inward path.tail → Rooted path)) ∧
      ∀ base' : String, '/' ∉ base'.toList →
        resolve base' (resolve base href) = resolve base href := by
  intro path
  have hresolve : resolve base href = String.ofList (join (walk [] path)) := by
    rw [resolve, if_neg (by simp [h]), segments_behind]
  -- Segments hold no slash, so a path that is joined from them is cut as it was.
  have hslash : ∀ s ∈ walk [] path, '/' ∉ s := by
    intro s hs
    rw [walk_nil_eq, List.mem_reverse] at hs
    rcases List.mem_append.1 (mem_of_mem_stack hs) with hs | hs
    · exact slash_not_mem_segments _ s (List.dropLast_subset _ hs)
    · exact slash_not_mem_segments _ s hs
  have hnormal : Normal (segments (resolve base href).toList) := by
    rw [hresolve, String.toList_ofList]
    apply normal_segments_join _ hslash
    rw [walk_nil_eq]
    exact normal_stack path
  refine ⟨hnormal, ?_, ?_, fun base' hbase' => resolve_of_normal hbase' hnormal⟩
  · rw [hresolve, String.toList_ofList, head?_join_iff hslash, exists_walk_iff]
  · intro hroot
    obtain ⟨tail, hbase⟩ := List.head?_eq_some_iff.1 hroot
    have hsegments : segments base.toList = [] :: segments tail := by rw [hbase]; rfl
    have hpath : path = [] :: ((segments tail).dropLast ++ segments href.toList) := by
      have hne : segments tail ≠ [] := by
        rw [segments_eq_splitOn]
        exact List.splitOnP_ne_nil _ _
      rw [show path = (segments base.toList).dropLast ++ segments href.toList from rfl, hsegments,
        List.dropLast_cons_of_ne_nil hne]
      rfl
    rw [hpath]
    exact ⟨rfl, fun hinward => ⟨[], _, rfl, ⟨inside_nil, rfl⟩, hinward⟩⟩

/-- A reference that leaves the directory of a relative path, and one that comes back to the root of
an absolute path and goes down again. -/
theorem resolve_normal_dotted :
    (isAbsolute "./../../img/./b.png".toList = false ∧
        Normal (segments "../../img/b.png".toList) ∧
        resolve "a.css" "../../img/b.png" = "../../img/b.png") ∧
      isAbsolute "../img/x/..//b.png".toList = false ∧
        Rooted ((segments "/css/a.css".toList).dropLast ++
          segments "../img/x/..//b.png".toList) := by
  have hresolve : resolve "../css/a.css" "./../../img/./b.png" = "../../img/b.png" := rfl
  have habsolute : isAbsolute "./../../img/./b.png".toList = false := by decide
  obtain ⟨hnormal, -, -, hagain⟩ := @resolve_normal "../css/a.css" _ habsolute
  rw [hresolve] at hnormal hagain
  have hrooted : resolve "/css/a.css" "../img/x/..//b.png" = "/img//b.png" := rfl
  have habsolute' : isAbsolute "../img/x/..//b.png".toList = false := by decide
  obtain ⟨-, hroot, -⟩ := @resolve_normal "/css/a.css" _ habsolute'
  rw [hrooted] at hroot
  exact ⟨⟨habsolute, hnormal, hagain "a.css" (by decide)⟩, habsolute', hroot.1 rfl⟩

/-- **A reference that climbs above the root loses it**: from `/a.css`, the reference `../b` leads
to `b`. -/
theorem not_forall_rooted :
    ¬ ∀ base href : String, isAbsolute href.toList = false →
      Normal (segments (resolve base href).toList) ∧
      (base.toList.head? = some '/' → (resolve base href).toList.head? = some '/') ∧
      ∀ base' : String, '/' ∉ base'.toList → isAbsolute (resolve base href).toList = false →
        resolve base' (resolve base href) = resolve base href := by
  intro h
  obtain ⟨-, hroot, -⟩ := h "/a.css" "../b" (by decide)
  have hresolve : resolve "/a.css" "../b" = "b" := rfl
  have hhead := hroot rfl
  rw [hresolve] at hhead
  revert hhead
  decide

end EpubStyle.Href
