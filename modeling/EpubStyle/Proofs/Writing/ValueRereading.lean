import EpubStyle.Proofs.Writing.Layout
import EpubStyle.Proofs.Writing.Locations

/-!
# Values that are laid out are read as they were

Tokens that are laid out as the strokes of values are those of a list of values, which differ from
the first in their locations only (`Values.reread`). What is laid out for the list is taken off the
front of the tokens, and those of the strokes behind it are left.

A list of values is written with spaces or without (`Row`). Single tokens and what opens a function
or group are taken off by `Laid.of_atom` and `Laid.of_opening`.
-/

set_option autoImplicit false

namespace EpubStyle

open Concrete

/-! ## Values in a row -/

/-- Constructs are written one after the other, with or without a space between two of them. -/
structure Row (write : List Construct → List Stroke) : Prop where
  nil : write [] = []
  concat (cs : List Construct) (c : Construct) :
    ∃ spaced, write (cs ++ [c]) = write cs ++ (Stroke.gap spaced ++ c.strokes)

theorem Construct.strokesEach_append (spaced : Bool) (cs ds : List Construct) :
    strokesEach spaced (cs ++ ds) = strokesEach spaced cs ++ strokesEach spaced ds := by
  induction cs with
  | nil => rfl
  | cons c cs ih => simp [strokesEach, ih]

theorem row_strokesEach (spaced : Bool) : Row (Construct.strokesEach spaced) where
  nil := rfl
  concat cs c := ⟨spaced, by simp [Construct.strokesEach_append, Construct.strokesEach]⟩

theorem row_strokesJoined (spaced : Bool) : Row (Construct.strokesJoined spaced) where
  nil := rfl
  concat cs c := by
    cases cs with
    | nil =>
        exact ⟨false, by simp [Construct.strokesJoined, Construct.strokesEach, Stroke.gap]⟩
    | cons d cs =>
        refine ⟨spaced, ?_⟩
        simp [Construct.strokesJoined, Construct.strokesEach_append, Construct.strokesEach]

/-! ## Single tokens -/

/-- A single token that is a value is a character exactly if the value is its symbol. -/
theorem Token.isChar_of_valueStart {t : Token} {c : Construct} (h : t.valueStart = .atom c)
    (x : Char) : t.isChar x = c.isSymbol x := by
  unfold valueStart at h
  cases hk : t.kind with
  | char =>
      simp only [hk] at h
      split at h
      all_goals first
        | (obtain rfl := (ValueStart.atom.inj h).symm
           simp [isChar, hk, Construct.isSymbol])
        | cases h
  | quantity m =>
      simp only [hk] at h
      obtain rfl := (ValueStart.atom.inj h).symm
      simp [isChar, hk, Construct.isSymbol]
  | _ =>
      simp only [hk] at h
      first
        | (obtain rfl := (ValueStart.atom.inj h).symm
           simp [isChar, hk, Construct.isSymbol])
        | cases h

theorem Construct.isSymbol_unlocated (c : Construct) (x : Char) :
    c.unlocated.isSymbol x = c.isSymbol x := by
  cases c with
  | atom kind value l => cases kind <;> rfl
  | _ => rfl

/-- Whether a single token that is a value is of the class depends on the value only. -/
def TokenClass.Settled (stop : TokenClass) : Prop :=
  ∀ ⦃t u : Token⦄ ⦃c d : Construct⦄, t.valueStart = .atom c → u.valueStart = .atom d →
    d.unlocated = c.unlocated → stop u = stop t

theorem TokenClass.settled_never : TokenClass.never.Settled := fun _ _ _ _ _ _ _ => rfl

theorem TokenClass.settled_isChar (x : Char) : TokenClass.Settled (fun t => t.isChar x) := by
  intro t u c d ht hu heq
  show u.isChar x = t.isChar x
  rw [Token.isChar_of_valueStart ht, Token.isChar_of_valueStart hu,
    ← Construct.isSymbol_unlocated, heq, Construct.isSymbol_unlocated]

theorem Opening.settled_closes (o : Opening) : TokenClass.Settled o.closes :=
  TokenClass.settled_isChar o.closer

namespace Laid

variable {ss : List Stroke} {ts : List Token}

/-- A single token that is a value. -/
theorem of_atom {t : Token} {c : Construct} (ht : t.valueStart = .atom c)
    (h : Laid (c.strokes ++ ss) ts) :
    ∃ (u : Token) (d : Construct) (vs : List Token), ts = u :: vs ∧ u.valueStart = .atom d ∧
      d.unlocated = c.unlocated ∧ Laid ss vs := by
  obtain ⟨kind, rfl⟩ | ⟨m, rfl⟩ := Token.eq_of_valueStart_atom ht
  · have hstrokes : (Construct.atom kind t.text t.location).strokes =
        [.sign (.value kind t.text)] := by
      cases kind with
      | typeSelector => exact absurd ht (Token.valueStart_ne_typeSelector t _ _)
      | _ => rfl
    rw [hstrokes] at h
    obtain ⟨_, vs, rfl, ⟨u, hu, rfl⟩, hrest⟩ := h.of_sign
    exact ⟨u, _, vs, rfl, hu, rfl, hrest⟩
  · obtain ⟨_, vs, rfl, ⟨u, hu, rfl⟩, hrest⟩ := h.of_sign
    exact ⟨u, _, vs, rfl, hu, rfl, hrest⟩

/-- A token that opens a function or group. -/
theorem of_opening {o : Opening} (h : Laid (.sign o.sign :: ss) ts) :
    ∃ (u : Token) (vs : List Token), ts = u :: vs ∧ u.valueStart = o.toStart ∧ Laid ss vs := by
  obtain ⟨_, vs, rfl, hshape, hrest⟩ := h.of_sign
  cases o with
  | function name =>
      obtain ⟨⟨u, hu⟩, rfl, rfl⟩ := hshape
      exact ⟨u, vs, rfl, by simp [Token.valueStart, hu, Opening.toStart], hrest⟩
  | group d =>
      obtain ⟨u, hu, rfl⟩ := hshape
      exact ⟨u, vs, rfl, hu, hrest⟩

end Laid

/-- The strokes of a function or group that is closed. -/
theorem Frame.strokes_close (o : Opening) (l : Location) (members : List Construct) :
    (Frame.close ⟨o, l, members⟩).strokes =
      .sign o.sign :: (Construct.strokesJoined true members.reverse ++
        [.sign (.mark o.closer)]) := by
  cases o with
  | function name => rfl
  | group delimiter => cases delimiter <;> rfl

theorem Frame.unlocated_close (o : Opening) (l l' : Location) {members members' : List Construct}
    (h : members'.map Construct.unlocated = members.map Construct.unlocated) :
    (Frame.close ⟨o, l', members'⟩).unlocated = (Frame.close ⟨o, l, members⟩).unlocated := by
  cases o <;>
    simp [close, Construct.unlocated, Construct.unlocatedEach_eq_map, List.map_reverse, h]

namespace Concrete

/-! ## Lists of values -/

/-- **Values are read as they were.** -/
theorem Values.reread {filler stop : TokenClass} (v : Values filler stop) (hstop : stop.Settled)
    {write : List Construct → List Stroke} (hrow : Row write) {ss : List Stroke} {ts : List Token}
    (h : Laid (write v.latest.reverse ++ ss) ts) :
    ∃ (w : Values Token.isBlank stop) (vs : List Token), ts = w.tokens ++ vs ∧
      w.latest.map Construct.unlocated = v.latest.map Construct.unlocated ∧ Laid ss vs := by
  induction v generalizing write ss ts with
  | nil =>
      rw [Values.latest, List.reverse_nil, hrow.nil] at h
      exact ⟨.nil, ts, rfl, rfl, h⟩
  | filler before t fits ih => exact ih hstop hrow h
  | atom before t c fits goes ih =>
      obtain ⟨spaced, hconcat⟩ := hrow.concat before.latest.reverse c
      rw [Values.latest, List.reverse_cons, hconcat, List.append_assoc, List.append_assoc] at h
      -- The row ends with this value, so the values before it are read first.
      obtain ⟨w, _, rfl, hlatest, hgap⟩ := ih hstop hrow h
      obtain ⟨g, _, rfl, hvalue⟩ := hgap.of_gap
      obtain ⟨u, d, vs, rfl, hu, heq, hrest⟩ := hvalue.of_atom fits
      obtain ⟨w', htokens, hlatest'⟩ := w.exists_spaced (fun _ => id) g
      refine ⟨.atom w' u d hu (by rw [hstop fits hu heq, goes]), vs, ?_, ?_, hrest⟩
      · simp [Values.tokens, htokens]
      · simp [Values.latest, hlatest', hlatest, heq]
  | nested before t o fits members closer ihb ihm =>
      obtain ⟨spaced, hconcat⟩ :=
        hrow.concat before.latest.reverse (Frame.close ⟨o, t.location, members.latest⟩)
      rw [Values.latest, List.reverse_cons, hconcat, List.append_assoc, List.append_assoc] at h
      obtain ⟨w, _, rfl, hlatest, hgap⟩ := ihb hstop hrow h
      obtain ⟨g, _, rfl, hvalue⟩ := hgap.of_gap
      rw [Frame.strokes_close, List.cons_append, List.append_assoc] at hvalue
      obtain ⟨u, _, rfl, hu, hmembers⟩ := hvalue.of_opening
      obtain ⟨inside, _, rfl, hinside, hcloser⟩ :=
        ihm o.settled_closes (row_strokesJoined true) hmembers
      obtain ⟨closer', vs, rfl, hrest⟩ := Laid.of_mark hcloser
      obtain ⟨w', htokens, hlatest'⟩ := w.exists_spaced (fun _ => id) g
      refine ⟨.nested w' u o hu inside closer', vs, ?_, ?_, hrest⟩
      · simp [Values.tokens, htokens]
      · simpa [Values.latest, hlatest', hlatest] using Frame.unlocated_close o _ _ hinside

end Concrete

end EpubStyle
