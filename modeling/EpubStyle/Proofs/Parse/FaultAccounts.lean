import Mathlib.Data.List.Basic
import EpubStyle.Proofs.Parse.Documents
import EpubStyle.Proofs.Token.Ends
import EpubStyle.Proofs.Token.Shapes

/-!
# Faults of tokens and collected problems

A lexical fault is reported twice over: it is attached to its token, and a handler of problems gets
it. The two accounts agree for a handler that collects (`FaultsAccounted.collected`). The report
that the text has ended comes once at most, and on the last token (`FaultsAccounted.once`,
`FaultsAccounted.final`).

A handler that collects without a limit lets every scan go on to its end, since no reader goes back
by more than two characters. One with a limit may give the scan up, and then there are no tokens.
-/

set_option autoImplicit false

namespace EpubStyle

/-- The problems collected while the tokens were scanned are their faults, token by token, and the
end of the text is reported on the last token only, and once. -/
structure FaultsAccounted (tokens : List Token) (problems : List Problem) : Prop where
  collected : problems = tokens.flatMap fun t => t.faults.map Fault.toProblem
  once : (tokens.flatMap Token.faults).countP Fault.isEnd ≤ 1
  final : ∀ (before : List Token) (t : Token) (after : List Token),
    tokens = before ++ t :: after → (∃ f ∈ t.faults, f.code = .lexicalEnd) → after = []

/-! ## What is collected -/

/-- A handler that collects, if it has not given up, has every problem in its order. -/
theorem deliver_collecting {limit : Option Nat} {capacity n : Nat} {signals : List Signal}
    (h : (deliver (.collecting limit) capacity n signals).failure = none) :
    (deliver (.collecting limit) capacity n signals).problems =
      signals.filterMap Signal.problem? := by
  induction signals generalizing n with
  | nil => rfl
  | cons s signals ih =>
      cases s with
      | event e => exact ih h
      | problem p =>
          simp only [deliver] at h ⊢
          cases hrespond : (Handler.collecting limit).respond n with
          | collect =>
              rw [hrespond] at h
              exact congrArg (p :: ·) (ih h)
          | drop =>
              -- A handler of this kind drops nothing.
              cases limit with
              | none => cases hrespond
              | some limit =>
                  simp only [Handler.respond] at hrespond
                  split at hrespond <;> cases hrespond
          | giveUp =>
              rw [hrespond] at h
              cases h
      | stepBack distance =>
          simp only [deliver] at h ⊢
          split at h
          · next hle =>
              rw [if_pos hle]
              exact ih h
          · cases h

/-- The problems among the signals of tokens are the faults that were found. -/
theorem problem?_scanSignals (tokens : List Scanned) :
    (scanSignals tokens).filterMap Signal.problem? =
      tokens.flatMap fun s => (s.events.filterMap ScanEvent.fault?).map Fault.toProblem := by
  rw [scanSignals, List.filterMap_flatMap]
  refine congrArg (List.flatMap · tokens) (funext fun s => ?_)
  rw [List.filterMap_map, List.map_filterMap]
  refine congrArg (List.filterMap · s.events) (funext fun e => ?_)
  cases e <;> rfl

/-- A token has the faults that were found while it was read. -/
theorem faults_of_mem_scan {text source : String} {s : Scanned} (hs : s ∈ scan text source) :
    s.token.faults = s.events.filterMap ScanEvent.fault? := by
  obtain ⟨p, c, cs, rfl⟩ := exists_lexeme_of_mem_scan hs
  rfl

/-- **The problems of a scan are the faults of its tokens.** -/
theorem problem?_scan (text source : String) :
    (scanSignals (scan text source)).filterMap Signal.problem? =
      ((scan text source).map Scanned.token).flatMap fun t => t.faults.map Fault.toProblem := by
  rw [problem?_scanSignals, List.flatMap_map]
  refine List.flatMap_congr fun s hs => ?_
  rw [faults_of_mem_scan hs]

/-! ## Whole scans -/

theorem accounted_scan (text source : String) :
    FaultsAccounted ((scan text source).map Scanned.token)
      ((scanSignals (scan text source)).filterMap Signal.problem?) where
  collected := problem?_scan text source
  once := (endsLast_scan text source).once
  final before t after htokens hf := by
    refine (endsLast_scan text source).final htokens ?_
    obtain ⟨f, hf, hcode⟩ := hf
    exact Nat.ne_of_gt (List.countP_pos_iff.2 ⟨f, hf, beq_iff_eq.2 hcode⟩)

/-- A scan with a handler that collects without a limit goes on to its end. -/
theorem failure_scanText {o : ParseOptions} {text source : String}
    (hsize : o.sizeFailure? text.utf8ByteSize = none) (hcapacity : 2 ≤ o.capacity) :
    (scanText o (.collecting none) text source).2.failure = none := by
  have hback : ∀ distance, Signal.stepBack distance ∈ scanSignals (scan text source) →
      distance ≤ o.capacity :=
    fun distance h => Nat.le_trans (fromScanner_scan text source _ h) hcapacity
  have hfailure := ErrorHandler.failure_of_patient Handler.patient_collecting.errorHandler [] hback
  rw [Handler.receive_errorHandler] at hfailure
  simp only [scanText, hsize]
  exact hfailure

/-- **Lexical faults are accounted for.** A scan of a text within the limit of size goes on to its
end with a handler that collects, and a scan that does so with any limit of problems has collected
the faults of its tokens, in their order. The end of the text is reported once at most, on the last
token. -/
theorem scanText_accounted (o : ParseOptions) (text source : String) :
    (o.sizeFailure? text.utf8ByteSize = none → 2 ≤ o.capacity →
      (scanText o (.collecting none) text source).2.failure = none) ∧
    ∀ limit, (scanText o (.collecting limit) text source).2.failure = none →
      FaultsAccounted (scanText o (.collecting limit) text source).1
        (scanText o (.collecting limit) text source).2.problems := by
  refine ⟨failure_scanText, fun limit h => ?_⟩
  cases hsize : o.sizeFailure? text.utf8ByteSize with
  | some failure =>
      simp only [scanText, hsize] at h
      cases h
  | none =>
      simp only [scanText, hsize] at h ⊢
      rw [deliver_collecting h]
      exact accounted_scan text source

/-- A malformed escape and the end of the text inside a string: two tokens with a fault each. -/
theorem scanText_accounted_broken :
    (scanText .default (.collecting none) "\\0 'a" "").2.failure = none ∧
      (scanText .default (.collecting none) "\\0 'a" "").2.problems.map (·.code) =
        [.malformedEscape, .lexicalEnd] ∧
      FaultsAccounted (scanText .default (.collecting none) "\\0 'a" "").1
        (scanText .default (.collecting none) "\\0 'a" "").2.problems := by
  obtain ⟨hgoes, haccounted⟩ := scanText_accounted .default "\\0 'a" ""
  have hfailure := hgoes (by decide) (by decide)
  exact ⟨hfailure, by decide +kernel, haccounted none hfailure⟩

end EpubStyle
