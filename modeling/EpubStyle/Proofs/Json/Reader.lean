import Mathlib.Algebra.Field.Rat
import Mathlib.Data.List.TakeWhile
import EpubStyle.Text.Chars

/-!
# A reader for JSON

The reader of RFC 8259, for texts of any origin. It goes in two steps. `JsonToken.scan` cuts a text
into the six structural characters, the three literal names, numbers and strings, with blanks
between them; `JsonDatum.ofTokens?` puts the tokens together. Both take all of what they are given
or fail.

A number is any number of the grammar, with a sign, a fraction and an exponent, and it is read as a
rational. A string may have every escape of the grammar. Two escapes of surrogates in a row make one
character, and one by itself makes none, so a text with it is not read. The members of an object are
kept in order, those with equal names as well.

`JsonDatum.ofTokens?` is a machine with a stack of the arrays and objects that are open. What it has
read at any time can be told from its state (`JsonReading.step_read`), so it reads exactly the
tokens of a datum and gives back this datum (`JsonDatum.ofTokens?_eq_some_iff`).
-/

set_option autoImplicit false

namespace EpubStyle

/-- A value as JSON has it. -/
inductive JsonDatum where
  | null
  | bool (b : Bool)
  | num (q : ℚ)
  | str (s : String)
  | arr (items : List JsonDatum)
  | obj (members : List (String × JsonDatum))

/-- A token of JSON. -/
inductive JsonToken where
  | openBracket
  | closeBracket
  | openBrace
  | closeBrace
  | colon
  | comma
  | null
  | bool (b : Bool)
  | num (q : ℚ)
  | str (s : String)
  deriving DecidableEq

namespace JsonToken

/-! ## Strings -/

/-- What a string consists of: characters, and the code units of escapes. -/
inductive StringPart where
  | char (c : Char)
  | unit (n : Nat)
  deriving DecidableEq

/-- The character of an escape of two characters. -/
def shortEscape? : Char → Option Char
  | '\x22' => some '\x22'
  | '\\' => some '\\'
  | '/' => some '/'
  | 'b' => some '\x08'
  | 'f' => some '\x0c'
  | 'n' => some '\n'
  | 'r' => some '\r'
  | 't' => some '\t'
  | _ => none

/-- The parts of a string up to its closing quotation mark, and the text behind that. -/
def stringParts : List Char → Option (List StringPart × List Char)
  | [] => none
  | '\x22' :: cs => some ([], cs)
  | '\\' :: 'u' :: a :: b :: c :: d :: cs =>
      if [a, b, c, d].all Text.isHexDigit then
        (stringParts cs).map fun r => (.unit (Text.hexValue [a, b, c, d]) :: r.1, r.2)
      else none
  -- A `u` without four characters behind it comes here as well, and is no short escape.
  | '\\' :: cs =>
      match cs with
      | [] => none
      | c :: cs =>
          (shortEscape? c).bind fun d => (stringParts cs).map fun r => (.char d :: r.1, r.2)
  | c :: cs =>
      if c.toNat < 0x20 then none
      else (stringParts cs).map fun r => (.char c :: r.1, r.2)

/-- The characters of a string, where surrogates are joined in pairs. -/
def characters : List StringPart → Option (List Char)
  | [] => some []
  | .char c :: parts => (characters parts).map (c :: ·)
  | .unit n :: parts =>
      -- A high surrogate counts only with a low one behind it.
      if 0xD800 ≤ n ∧ n < 0xDC00 then
        match parts with
        | .unit m :: parts =>
            if 0xDC00 ≤ m ∧ m < 0xE000 then
              (characters parts).map
                (Char.ofNat (0x10000 + 0x400 * (n - 0xD800) + (m - 0xDC00)) :: ·)
            else none
        | _ => none
      else if 0xDC00 ≤ n ∧ n < 0xE000 then none
      else (characters parts).map (Char.ofNat n :: ·)

/-- A string behind its opening quotation mark. -/
def string (cs : List Char) : Option (JsonToken × List Char) :=
  (stringParts cs).bind fun r => (characters r.1).map fun s => (str (String.ofList s), r.2)

/-! ## Numbers -/

/-- The digits of an integer: a zero, or digits of which the first is none. -/
def integer : List Char → Option (List Char × List Char)
  | [] => none
  | c :: cs =>
      if c == '0' then some ([c], cs)
      else if c.isDigit then some (c :: cs.takeWhile Char.isDigit, cs.dropWhile Char.isDigit)
      else none

/-- The digits behind a point, if there are any. -/
def fraction (cs : List Char) : List Char × List Char :=
  match cs with
  | '.' :: rest =>
      if rest.head?.any Char.isDigit then (rest.takeWhile Char.isDigit, rest.dropWhile Char.isDigit)
      else ([], cs)
  | _ => ([], cs)

/-- A text without the sign at its front. -/
def unsigned : List Char → List Char
  | '-' :: cs | '+' :: cs => cs
  | cs => cs

/-- An exponent, zero if there is none. -/
def exponent (cs : List Char) : ℤ × List Char :=
  match cs with
  | c :: rest =>
      if (c == 'e' || c == 'E') && (unsigned rest).head?.any Char.isDigit then
        let n : ℤ := Nat.ofDigitChars 10 ((unsigned rest).takeWhile Char.isDigit) 0
        (if rest.head? = some '-' then -n else n, (unsigned rest).dropWhile Char.isDigit)
      else (0, cs)
  | [] => (0, [])

/-- A number without its sign. -/
def magnitude (cs : List Char) : Option (ℚ × List Char) :=
  (integer cs).map fun whole =>
    let part := fraction whole.2
    let power := exponent part.2
    ((Nat.ofDigitChars 10 (whole.1 ++ part.1) 0 : ℚ) * 10 ^ (power.1 - part.1.length), power.2)

/-- A number. -/
def number : List Char → Option (JsonToken × List Char)
  | '-' :: cs => (magnitude cs).map fun r => (num (-r.1), r.2)
  | cs => (magnitude cs).map fun r => (num r.1, r.2)

/-! ## Texts -/

/-- A space, a tab, a line feed or a carriage return. -/
def isBlank (c : Char) : Bool := c == ' ' || c == '\t' || c == '\n' || c == '\r'

/-- The token at the front of a text. -/
def next? : List Char → Option (JsonToken × List Char)
  | '[' :: cs => some (openBracket, cs)
  | ']' :: cs => some (closeBracket, cs)
  | '\x7b' :: cs => some (openBrace, cs)
  | '\x7d' :: cs => some (closeBrace, cs)
  | ':' :: cs => some (colon, cs)
  | ',' :: cs => some (comma, cs)
  | 'n' :: 'u' :: 'l' :: 'l' :: cs => some (null, cs)
  | 't' :: 'r' :: 'u' :: 'e' :: cs => some (bool true, cs)
  | 'f' :: 'a' :: 'l' :: 's' :: 'e' :: cs => some (bool false, cs)
  | '\x22' :: cs => string cs
  | cs => number cs

theorem length_stringParts_lt {cs rest : List Char} {parts : List StringPart}
    (h : stringParts cs = some (parts, rest)) : rest.length < cs.length := by
  fun_induction stringParts cs generalizing parts with
  | case1 => cases h
  | case2 cs =>
      obtain rfl := (Prod.mk.inj (Option.some.inj h)).2
      exact Nat.lt_succ_self _
  | case3 a b c d cs hhex ih | case8 c cs hquote hunit hback hcontrol ih =>
      obtain ⟨r, hr, heq⟩ := Option.map_eq_some_iff.1 h
      obtain rfl := (Prod.mk.inj heq).2
      have hlt := ih hr
      simp only [List.length_cons]
      omega
  | case6 c cs hunit ih =>
      obtain ⟨d, -, hrest⟩ := Option.bind_eq_some_iff.1 h
      obtain ⟨r, hr, heq⟩ := Option.map_eq_some_iff.1 hrest
      obtain rfl := (Prod.mk.inj heq).2
      have hlt := ih hr
      simp only [List.length_cons]
      omega
  | _ => cases h

theorem length_string_lt {cs rest : List Char} {t : JsonToken} (h : string cs = some (t, rest)) :
    rest.length < cs.length := by
  obtain ⟨r, hr, hcharacters⟩ := Option.bind_eq_some_iff.1 h
  obtain ⟨s, -, heq⟩ := Option.map_eq_some_iff.1 hcharacters
  obtain rfl := (Prod.mk.inj heq).2
  exact length_stringParts_lt hr

theorem length_unsigned_le (cs : List Char) : (unsigned cs).length ≤ cs.length := by
  unfold unsigned
  split
  · exact Nat.le_succ _
  · exact Nat.le_succ _
  · exact Nat.le_refl _

theorem length_magnitude_lt {cs : List Char} {r : ℚ × List Char} (h : magnitude cs = some r) :
    r.2.length < cs.length := by
  obtain ⟨whole, hwhole, rfl⟩ := Option.map_eq_some_iff.1 h
  have hinteger : whole.2.length < cs.length := by
    unfold integer at hwhole
    split at hwhole
    · cases hwhole
    · next c cs =>
        split at hwhole
        · obtain rfl := Option.some.inj hwhole
          exact Nat.lt_succ_self _
        · split at hwhole
          · obtain rfl := Option.some.inj hwhole
            exact Nat.lt_succ_of_le (List.length_dropWhile_le _ cs)
          · cases hwhole
  have hfraction : ∀ cs, (fraction cs).2.length ≤ cs.length := by
    intro cs
    unfold fraction
    split
    · next rest =>
        split
        · exact Nat.le_succ_of_le (List.length_dropWhile_le _ rest)
        · exact Nat.le_refl _
    · exact Nat.le_refl _
  have hexponent : ∀ cs, (exponent cs).2.length ≤ cs.length := by
    intro cs
    unfold exponent
    split
    · next c rest =>
        split
        · exact Nat.le_succ_of_le
            (Nat.le_trans (List.length_dropWhile_le _ _) (length_unsigned_le rest))
        · exact Nat.le_refl _
    · exact Nat.le_refl _
  exact Nat.lt_of_le_of_lt (Nat.le_trans (hexponent _) (hfraction _)) hinteger

theorem length_number_lt {cs rest : List Char} {t : JsonToken} (h : number cs = some (t, rest)) :
    rest.length < cs.length := by
  unfold number at h
  split at h
  · obtain ⟨r, hr, heq⟩ := Option.map_eq_some_iff.1 h
    obtain rfl := (Prod.mk.inj heq).2
    exact Nat.lt_succ_of_lt (length_magnitude_lt hr)
  · obtain ⟨r, hr, heq⟩ := Option.map_eq_some_iff.1 h
    obtain rfl := (Prod.mk.inj heq).2
    exact length_magnitude_lt hr

/-- A token takes at least one character. -/
theorem length_next?_lt {cs rest : List Char} {t : JsonToken} (h : next? cs = some (t, rest)) :
    rest.length < cs.length := by
  unfold next? at h
  split at h
  case h_10 => exact Nat.lt_succ_of_lt (length_string_lt h)
  case h_11 => exact length_number_lt h
  all_goals
    obtain rfl := (Prod.mk.inj (Option.some.inj h)).2
    simp only [List.length_cons]
    omega

/-- The tokens of a text, with blanks between them. -/
def scan : List Char → Option (List JsonToken)
  | [] => some []
  | c :: cs =>
      if isBlank c then scan cs
      else
        match _h : next? (c :: cs) with
        | none => none
        | some (t, rest) => (scan rest).map (t :: ·)
  termination_by cs => cs.length
  decreasing_by
    · exact Nat.lt_succ_self _
    · exact length_next?_lt _h

end JsonToken

/-! ## Data -/

namespace JsonDatum

mutual

/-- The tokens of a datum. -/
def tokens : JsonDatum → List JsonToken
  | null => [.null]
  | bool b => [.bool b]
  | num q => [.num q]
  | str s => [.str s]
  | arr items => .openBracket :: itemTokens items ++ [.closeBracket]
  | obj members => .openBrace :: memberTokens members ++ [.closeBrace]

/-- Items with commas between them. -/
def itemTokens : List JsonDatum → List JsonToken
  | [] => []
  | [item] => tokens item
  | item :: items => tokens item ++ .comma :: itemTokens items

/-- Members with commas between them. -/
def memberTokens : List (String × JsonDatum) → List JsonToken
  | [] => []
  | [(key, value)] => .str key :: .colon :: tokens value
  | (key, value) :: members => .str key :: .colon :: tokens value ++ .comma :: memberTokens members

end

end JsonDatum

/-- An array or an object that is open, with what it has before the value that is read. -/
inductive JsonFrame where
  | items (before : List JsonDatum)
  | members (before : List (String × JsonDatum)) (key : String)

/-- What a reader of JSON has just read. -/
inductive JsonPhase where
  /-- Nothing of a value that has to come. -/
  | value
  /-- The opening bracket of an array. -/
  | opened
  /-- The members of an object before a key, with the comma behind the last one. -/
  | key (before : List (String × JsonDatum))
  /-- A key behind these members. -/
  | colon (before : List (String × JsonDatum)) (key : String)
  /-- A whole value. -/
  | done (d : JsonDatum)

/-- The state of a reader of JSON: the arrays and objects that are open, the innermost one first,
and what was read behind them. -/
structure JsonReading where
  frames : List JsonFrame
  phase : JsonPhase

namespace JsonReading

/-- A value begins with a token. -/
def begin (frames : List JsonFrame) : JsonToken → Option JsonReading
  | .null => some ⟨frames, .done .null⟩
  | .bool b => some ⟨frames, .done (.bool b)⟩
  | .num q => some ⟨frames, .done (.num q)⟩
  | .str s => some ⟨frames, .done (.str s)⟩
  | .openBracket => some ⟨frames, .opened⟩
  | .openBrace => some ⟨frames, .key []⟩
  | _ => none

/-- Read one more token. -/
def step : JsonReading → JsonToken → Option JsonReading
  | ⟨frames, .value⟩, t => begin frames t
  | ⟨frames, .opened⟩, .closeBracket => some ⟨frames, .done (.arr [])⟩
  | ⟨frames, .opened⟩, t => begin (.items [] :: frames) t
  | ⟨frames, .key []⟩, .closeBrace => some ⟨frames, .done (.obj [])⟩
  | ⟨frames, .key before⟩, .str key => some ⟨frames, .colon before key⟩
  | ⟨frames, .colon before key⟩, .colon => some ⟨.members before key :: frames, .value⟩
  | ⟨.items before :: frames, .done d⟩, .comma => some ⟨.items (before ++ [d]) :: frames, .value⟩
  | ⟨.items before :: frames, .done d⟩, .closeBracket =>
      some ⟨frames, .done (.arr (before ++ [d]))⟩
  | ⟨.members before key :: frames, .done d⟩, .comma =>
      some ⟨frames, .key (before ++ [(key, d)])⟩
  | ⟨.members before key :: frames, .done d⟩, .closeBrace =>
      some ⟨frames, .done (.obj (before ++ [(key, d)]))⟩
  | _, _ => none

/-- The datum, if it is whole. -/
def datum? : JsonReading → Option JsonDatum
  | ⟨[], .done d⟩ => some d
  | _ => none

end JsonReading

namespace JsonDatum

/-- The datum that tokens make. -/
def ofTokens? (ts : List JsonToken) : Option JsonDatum :=
  (ts.foldlM JsonReading.step ⟨[], .value⟩).bind JsonReading.datum?

/-- **Read a text as JSON**, all of it. -/
def read (text : String) : Option JsonDatum := (JsonToken.scan text.toList).bind ofTokens?

end JsonDatum

/-! ## What is read -/

namespace JsonDatum

/-- Items with a comma behind each. -/
def itemsBefore (items : List JsonDatum) : List JsonToken :=
  items.flatMap fun d => d.tokens ++ [.comma]

/-- Members with a comma behind each. -/
def membersBefore (members : List (String × JsonDatum)) : List JsonToken :=
  members.flatMap fun m => .str m.1 :: .colon :: m.2.tokens ++ [.comma]

theorem itemTokens_concat (items : List JsonDatum) (d : JsonDatum) :
    itemTokens (items ++ [d]) = itemsBefore items ++ d.tokens := by
  induction items with
  | nil => simp [itemTokens, itemsBefore]
  | cons item items ih =>
      obtain ⟨next, more, hnext⟩ : ∃ next more, items ++ [d] = next :: more :=
        List.exists_cons_of_ne_nil (by simp)
      rw [List.cons_append, hnext, itemTokens, ← hnext, ih]
      · simp [itemsBefore]
      · simp

theorem memberTokens_concat (members : List (String × JsonDatum)) (key : String) (d : JsonDatum) :
    memberTokens (members ++ [(key, d)]) =
      membersBefore members ++ .str key :: .colon :: d.tokens := by
  induction members with
  | nil => simp [memberTokens, membersBefore]
  | cons member members ih =>
      obtain ⟨next, more, hnext⟩ : ∃ next more, members ++ [(key, d)] = next :: more :=
        List.exists_cons_of_ne_nil (by simp)
      rw [List.cons_append, hnext, memberTokens, ← hnext, ih]
      · simp [membersBefore]
      · simp

end JsonDatum

open JsonDatum

/-- The tokens of an open array or object up to the value that is read. -/
def JsonFrame.read : JsonFrame → List JsonToken
  | items before => .openBracket :: itemsBefore before
  | members before key => .openBrace :: membersBefore before ++ [.str key, .colon]

/-- The tokens read behind the arrays and objects that are open. -/
def JsonPhase.read : JsonPhase → List JsonToken
  | value => []
  | opened => [.openBracket]
  | key before => .openBrace :: membersBefore before
  | colon before name => .openBrace :: membersBefore before ++ [.str name]
  | done d => d.tokens

namespace JsonReading

/-- All tokens that a reader has read. -/
def read (s : JsonReading) : List JsonToken :=
  s.frames.reverse.flatMap JsonFrame.read ++ s.phase.read

theorem begin_read {frames : List JsonFrame} {t : JsonToken} {s : JsonReading}
    (h : begin frames t = some s) : s.read = frames.reverse.flatMap JsonFrame.read ++ [t] := by
  cases t <;> cases h <;> simp [read, JsonPhase.read, tokens, membersBefore]

/-- **One more token is read, and nothing of what was read is lost.** -/
theorem step_read {s s' : JsonReading} {t : JsonToken} (h : step s t = some s') :
    s'.read = s.read ++ [t] := by
  unfold step at h
  -- One case for each line of the machine. A closing bracket moves the items of the innermost frame
  -- into the value that is done, which has the same tokens.
  split at h
  · rw [begin_read h]
    simp [read, JsonPhase.read]
  · obtain rfl := Option.some.inj h
    simp [read, JsonPhase.read, tokens, itemTokens]
  · rw [begin_read h]
    simp [read, JsonPhase.read, JsonFrame.read, itemsBefore]
  · obtain rfl := Option.some.inj h
    simp [read, JsonPhase.read, tokens, memberTokens, membersBefore]
  · obtain rfl := Option.some.inj h
    simp [read, JsonPhase.read]
  · obtain rfl := Option.some.inj h
    simp [read, JsonPhase.read, JsonFrame.read]
  · obtain rfl := Option.some.inj h
    simp [read, JsonPhase.read, JsonFrame.read, itemsBefore]
  · obtain rfl := Option.some.inj h
    simp [read, JsonPhase.read, JsonFrame.read, tokens, itemTokens_concat]
  · obtain rfl := Option.some.inj h
    simp [read, JsonPhase.read, JsonFrame.read, membersBefore]
  · obtain rfl := Option.some.inj h
    simp [read, JsonPhase.read, JsonFrame.read, tokens, memberTokens_concat]
  · cases h

/-- **A run reads the tokens that it is given.** -/
theorem run_read {s s' : JsonReading} {ts : List JsonToken} (h : ts.foldlM step s = some s') :
    s'.read = s.read ++ ts := by
  induction ts generalizing s with
  | nil =>
      obtain rfl := Option.some.inj h
      rw [List.append_nil]
  | cons t ts ih =>
      obtain ⟨s₁, hstep, hrun⟩ := Option.bind_eq_some_iff.1 h
      rw [ih hrun, step_read hstep, List.append_assoc]
      rfl

/-- The first token of a datum does not close an array. -/
theorem exists_tokens_cons (d : JsonDatum) : ∃ t ts, d.tokens = t :: ts ∧ t ≠ .closeBracket := by
  cases d <;> exact ⟨_, _, rfl, by simp⟩

/-- The first item of an array is read like any other. -/
theorem run_opened (frames : List JsonFrame) (d : JsonDatum) (ts : List JsonToken) :
    (d.tokens ++ ts).foldlM step ⟨frames, .opened⟩ =
      (d.tokens ++ ts).foldlM step ⟨.items [] :: frames, .value⟩ := by
  obtain ⟨t, more, htokens, hne⟩ := exists_tokens_cons d
  have hstep : step ⟨frames, .opened⟩ t = step ⟨.items [] :: frames, .value⟩ t := by
    cases t with
    | closeBracket => exact absurd rfl hne
    | _ => rfl
  rw [htokens, List.cons_append, List.foldlM_cons, List.foldlM_cons, hstep]

mutual

/-- **The tokens of a datum are read as this datum**, whatever is open and whatever follows. -/
theorem run_tokens (d : JsonDatum) (frames : List JsonFrame) (ts : List JsonToken) :
    (d.tokens ++ ts).foldlM step ⟨frames, .value⟩ = ts.foldlM step ⟨frames, .done d⟩ := by
  cases d with
  | null | bool b | num q | str s => rfl
  | arr items =>
      rw [tokens, List.append_assoc, List.cons_append, List.singleton_append]
      have hopened : ∀ more, (JsonToken.openBracket :: more).foldlM step ⟨frames, .value⟩ =
          more.foldlM step ⟨frames, .opened⟩ := fun _ => rfl
      rw [hopened]
      cases hitems : items with
      | nil => rfl
      | cons item more =>
          -- The first item stands behind the bracket, where an array may also close; from there on
          -- it is one of the items that are left.
          have hfirst : ∃ rest, itemTokens (item :: more) ++ .closeBracket :: ts =
              item.tokens ++ rest := by
            cases more <;> simp [itemTokens]
          obtain ⟨rest, hrest⟩ := hfirst
          rw [hrest, run_opened, ← hrest, ← hitems]
          exact run_items items [] (by simp [hitems]) frames ts
  | obj members =>
      rw [tokens, List.append_assoc, List.cons_append, List.singleton_append]
      have hopened : ∀ more, (JsonToken.openBrace :: more).foldlM step ⟨frames, .value⟩ =
          more.foldlM step ⟨frames, .key []⟩ := fun _ => rfl
      rw [hopened]
      cases hmembers : members with
      | nil => rfl
      | cons member more =>
          rw [← hmembers]
          exact run_members members [] (by simp [hmembers]) frames ts

/-- The items of an array that are left. -/
theorem run_items (items before : List JsonDatum) (hne : items ≠ []) (frames : List JsonFrame)
    (ts : List JsonToken) :
    (itemTokens items ++ .closeBracket :: ts).foldlM step ⟨.items before :: frames, .value⟩ =
      ts.foldlM step ⟨frames, .done (.arr (before ++ items))⟩ := by
  match items with
  | [] => exact absurd rfl hne
  | [item] =>
      rw [itemTokens, run_tokens item]
      rfl
  | item :: next :: more =>
      have htokens : itemTokens (item :: next :: more) ++ .closeBracket :: ts =
          item.tokens ++ .comma :: (itemTokens (next :: more) ++ .closeBracket :: ts) := by
        simp [itemTokens]
      have hcomma : ∀ rest, (JsonToken.comma :: rest).foldlM step
          ⟨.items before :: frames, .done item⟩ =
            rest.foldlM step ⟨.items (before ++ [item]) :: frames, .value⟩ := fun _ => rfl
      rw [htokens, run_tokens item, hcomma, run_items (next :: more) _ (by simp),
        List.append_assoc, List.singleton_append]

/-- The members of an object that are left. -/
theorem run_members (members before : List (String × JsonDatum)) (hne : members ≠ [])
    (frames : List JsonFrame) (ts : List JsonToken) :
    (memberTokens members ++ .closeBrace :: ts).foldlM step ⟨frames, .key before⟩ =
      ts.foldlM step ⟨frames, .done (.obj (before ++ members))⟩ := by
  -- A key is read alike behind the opening brace and behind a comma.
  have hkey : ∀ key rest, (JsonToken.str key :: .colon :: rest).foldlM step ⟨frames, .key before⟩ =
      rest.foldlM step ⟨.members before key :: frames, .value⟩ := by
    intro key rest
    cases before <;> rfl
  match members with
  | [] => exact absurd rfl hne
  | [(key, value)] =>
      have htokens : memberTokens [(key, value)] ++ .closeBrace :: ts =
          .str key :: .colon :: (value.tokens ++ .closeBrace :: ts) := by
        simp [memberTokens]
      rw [htokens, hkey, run_tokens value]
      rfl
  | (key, value) :: next :: more =>
      have htokens : memberTokens ((key, value) :: next :: more) ++ .closeBrace :: ts =
          .str key :: .colon :: (value.tokens ++
            .comma :: (memberTokens (next :: more) ++ .closeBrace :: ts)) := by
        simp [memberTokens]
      have hcomma : ∀ rest, (JsonToken.comma :: rest).foldlM step
          ⟨.members before key :: frames, .done value⟩ =
            rest.foldlM step ⟨frames, .key (before ++ [(key, value)])⟩ := fun _ => rfl
      rw [htokens, hkey, run_tokens value, hcomma, run_members (next :: more) _ (by simp),
        List.append_assoc, List.singleton_append]

end

end JsonReading

/-- **The reader is exact on tokens**: it reads those of a datum and no others. -/
theorem JsonDatum.ofTokens?_eq_some_iff {ts : List JsonToken} {d : JsonDatum} :
    ofTokens? ts = some d ↔ ts = d.tokens := by
  constructor
  · intro h
    obtain ⟨s, hrun, hdatum⟩ := Option.bind_eq_some_iff.1 h
    have hread := JsonReading.run_read hrun
    -- Nothing is open at the end, so the datum is all that was read.
    unfold JsonReading.datum? at hdatum
    split at hdatum
    · obtain rfl := Option.some.inj hdatum
      simpa [JsonReading.read, JsonPhase.read] using hread.symm
    · cases hdatum
  · rintro rfl
    have hrun := JsonReading.run_tokens d [] []
    rw [List.append_nil] at hrun
    rw [ofTokens?, hrun]
    rfl

end EpubStyle
