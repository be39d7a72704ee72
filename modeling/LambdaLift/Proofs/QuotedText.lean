/-
  LambdaLift.Proofs.QuotedText
  **EVERY TEXT READS BACK FROM THE FORM IT IS WRITTEN IN.**

  A text is written between quotes of one of four kinds, and the reader has
  to find its end.  Escapes are read in the same way in both forms with
  double quotes (`Unescapes`).  In the forms with three quotes a quote of the
  text may be mistaken for the end only where three stand in a row, and the
  writer leaves three in a row nowhere but at the end, where the reader counts
  those that are too many back to the text.

  Main results:
    * `Unescapes.escaped` — what an escape stands for;
    * `basicBody_written`, `multiBasicBody_written`, `literalBody_written`,
      `multiLiteralBody_written` — the text of each form;
    * `readString_writeString` — reading takes back what writing gives, and
      stops right behind it.
-/
import Mathlib
import LambdaLift.Toml.Text

namespace LambdaLift.Toml

/-! ## §1. Characters and their escapes. -/

@[simp] theorem emit_some (c : Char) (cs rest : List Char) :
    emit c (some (cs, rest)) = some (c :: cs, rest) := rfl

theorem hexValue?_hexDigit : ∀ n < 16, hexValue? (hexDigit n) = some n := by decide

theorem charOf?_toNat (c : Char) : charOf? c.toNat = some c := by
  have hvalid : c.toNat.isValidChar := c.valid
  unfold charOf?
  rw [dif_pos hvalid]
  rfl

/-- A character that needs an escape is one of the first, or the last, of the first half of a
byte. -/
theorem toNat_lt_of_needsEscape {c : Char} (h : needsEscape c) : c.toNat < 128 := by
  simp [needsEscape, isText] at h
  omega

/-- A character without an escape stands in the text as it is. -/
theorem isText_of_escaped?_eq_none {c : Char} (h : escaped? c = none) :
    c ≠ '\\' ∧ c ≠ '\r' ∧ c ≠ '\t' ∧ (c = '\n' ∨ isText c) := by
  unfold escaped? at h
  split_ifs at h with h₁ h₂ h₃ h₄ h₅ h₆
  refine ⟨h₅, h₄, h₂, ?_⟩
  by_cases hline : c = '\n'
  · exact .inl hline
  · refine .inr ?_
    by_contra htext
    exact h₆ (by simp [needsEscape, hline, htext])

/-- A reader that knows the escapes. -/
structure Unescapes (body : Reading → List Char → Read) : Prop where
  backslash : ∀ l, body .text ('\\' :: l) = body .escape l
  char : ∀ {x d l}, escape? x = some (.char d) → body .escape (x :: l) = emit d (body .text l)
  code : ∀ {x n l}, escape? x = some (.code n) → body .escape (x :: l) = body (.code n 0) l
  digit : ∀ {x d n acc l}, hexValue? x = some d →
    body (.code (n + 2) acc) (x :: l) = body (.code (n + 1) (16 * acc + d)) l
  last : ∀ {x d acc c l}, hexValue? x = some d → charOf? (16 * acc + d) = some c →
    body (.code 1 acc) (x :: l) = emit c (body .text l)

namespace Unescapes

variable {body : Reading → List Char → Read} (h : Unescapes body)
include h

theorem short {x d : Char} (l : List Char) (hx : escape? x = some (.char d)) :
    body .text ('\\' :: x :: l) = emit d (body .text l) := by
  rw [h.backslash, h.char hx]

theorem escapedCode {c : Char} (hc : c.toNat < 256) (l : List Char) :
    body .text (escapedCode c ++ l) = emit c (body .text l) := by
  have hlow : c.toNat % 16 < 16 := Nat.mod_lt _ (by decide)
  have hhigh : c.toNat / 16 < 16 := by omega
  have hzero : hexValue? '0' = some 0 := by decide
  have hsum : 16 * (16 * (16 * (16 * 0 + 0) + 0) + c.toNat / 16) + c.toNat % 16 = c.toNat := by
    omega
  simp only [Toml.escapedCode, List.cons_append, List.nil_append]
  rw [h.backslash, h.code (x := 'u') (n := 4) rfl, h.digit hzero, h.digit hzero,
    h.digit (hexValue?_hexDigit _ hhigh),
    h.last (hexValue?_hexDigit _ hlow) (hsum ▸ charOf?_toNat c)]

/-- **What an escape stands for.** -/
theorem escaped {c : Char} {w : List Char} (hc : escaped? c = some w) (l : List Char) :
    body .text (w ++ l) = emit c (body .text l) := by
  unfold escaped? at hc
  split_ifs at hc with h₁ h₂ h₃ h₄ h₅ h₆
  all_goals obtain rfl := Option.some.inj hc
  · subst h₁; exact h.short l rfl
  · subst h₂; exact h.short l rfl
  · subst h₃; exact h.short l rfl
  · subst h₄; exact h.short l rfl
  · subst h₅; exact h.short l rfl
  · exact h.escapedCode ((toNat_lt_of_needsEscape h₆).trans (by decide)) l

end Unescapes

/-! ## §2. One quote. -/

theorem unescapes_basicBody : Unescapes basicBody where
  backslash l := by simp [basicBody]
  char hx := by simp [basicBody, hx]
  code hx := by simp [basicBody, hx]
  digit hx := by simp [basicBody, hx]
  last hx hc := by simp [basicBody, hx, hc]

theorem basicBody_basicChar (c : Char) (l : List Char) :
    basicBody .text (basicChar c ++ l) = emit c (basicBody .text l) := by
  unfold basicChar
  split_ifs with hquote hline
  · subst hquote; exact unescapes_basicBody.short l rfl
  · subst hline; exact unescapes_basicBody.short l rfl
  cases hc : escaped? c with
  | some w => exact unescapes_basicBody.escaped hc l
  | none =>
    obtain ⟨hback, -, -, htext⟩ := isText_of_escaped?_eq_none hc
    simp [basicBody, hquote, hback, htext.resolve_left hline]

theorem basicBody_written (cs rest : List Char) :
    basicBody .text (cs.flatMap basicChar ++ '"' :: rest) = some (cs, rest) := by
  induction cs with
  | nil => simp [basicBody]
  | cons c cs ih => rw [List.flatMap_cons, List.append_assoc, basicBody_basicChar, ih, emit_some]

theorem literalBody_written {cs : List Char} (h : ∀ c ∈ cs, isText c ∧ c ≠ '\'')
    (rest : List Char) : literalBody (cs ++ '\'' :: rest) = some (cs, rest) := by
  induction cs with
  | nil => simp [literalBody]
  | cons c cs ih =>
    obtain ⟨htext, hquote⟩ := h c List.mem_cons_self
    simp [literalBody, htext, hquote, ih fun x hx => h x (List.mem_cons_of_mem _ hx)]

/-! ## §3. Three quotes. -/

/-- What begins an escape does not end a line and is no blank. -/
theorem escape?_ne {x : Char} {e : Escape} (h : escape? x = some e) :
    x ≠ '\r' ∧ x ≠ '\n' ∧ ¬ isBlank x := by
  refine ⟨?_, ?_, fun hblank => ?_⟩
  · rintro rfl; cases h
  · rintro rfl; cases h
  · obtain rfl | rfl : x = ' ' ∨ x = '\t' := by simpa [isBlank] using hblank
    all_goals cases h

theorem unescapes_multiBasicBody : Unescapes multiBasicBody where
  backslash l := by simp [multiBasicBody]
  char hx := by
    obtain ⟨hreturn, hline, hblank⟩ := escape?_ne hx
    simp [multiBasicBody, hx, hreturn, hline, hblank]
  code hx := by
    obtain ⟨hreturn, hline, hblank⟩ := escape?_ne hx
    simp [multiBasicBody, hx, hreturn, hline, hblank]
  digit hx := by simp [multiBasicBody, hx]
  last hx hc := by simp [multiBasicBody, hx, hc]

/-- Whether three quotes do not stand in front once one more is put there. -/
def Apart (quote : Char) (l : List Char) : Prop := ∀ rest, l ≠ quote :: quote :: rest

theorem closing_text {quote : Char} {rest : List Char} (h : rest.head? ≠ some quote) :
    closing quote rest = ([], rest) ∧ closing quote (quote :: rest) = ([quote], rest)
      ∧ closing quote (quote :: quote :: rest) = ([quote, quote], rest) := by
  cases rest with
  | nil => simp [closing]
  | cons a rest =>
    have ha : a ≠ quote := by simpa using h
    cases rest <;> simp [closing, ha]

/-- A quote of the text that is not the first of three. -/
theorem multiBasicBody_quote {l : List Char} (h : Apart '"' l) :
    multiBasicBody .text ('"' :: l) = emit '"' (multiBasicBody .text l) := by
  rw [multiBasicBody]
  · simp [isText]
  · rintro rest - rfl
    exact h rest rfl
  · simp

theorem multiBasicBody_plain {c : Char} (hquote : c ≠ '"') (l : List Char) :
    multiBasicBody .text ((escaped? c).getD [c] ++ l) = emit c (multiBasicBody .text l) := by
  cases hc : escaped? c with
  | some w => exact unescapes_multiBasicBody.escaped hc l
  | none =>
    obtain ⟨hback, hreturn, -, htext⟩ := isText_of_escaped?_eq_none hc
    have htext' : (isText c || c = '\n') = true := by simpa [or_comm] using htext
    simp [multiBasicBody, hquote, hback, hreturn, htext']

theorem escaped?_head {c : Char} {w : List Char} (h : escaped? c = some w) :
    ∃ l, w = '\\' :: l := by
  unfold escaped? at h
  split_ifs at h <;> exact ⟨_, (Option.some.inj h).symm⟩

/-- What is written for a character begins with a quote only if the character is one, and not the
third in a row. -/
theorem multiBasicChars_head {quotes : Nat} {c : Char}
    (hquote : c = '"' → quotes = 2) (cs : List Char) :
    ∃ x l, multiBasicChars quotes (c :: cs) = x :: l ∧ x ≠ '"' := by
  by_cases hc : c = '"'
  · exact ⟨'\\', '"' :: multiBasicChars 0 cs, by simp [multiBasicChars, hc, hquote hc], by decide⟩
  · cases hw : escaped? c with
    | none => exact ⟨c, multiBasicChars 0 cs, by simp [multiBasicChars, hc, hw], hc⟩
    | some w =>
      obtain ⟨l, rfl⟩ := escaped?_head hw
      exact ⟨'\\', l ++ multiBasicChars 0 cs, by simp [multiBasicChars, hc, hw], by decide⟩

/-- After a quote of the text two more follow only at the end of the text. -/
theorem apart_multiBasicChars (cs tail : List Char) {quotes : Nat}
    (hquotes : quotes = 1 ∨ quotes = 2) :
    Apart '"' (multiBasicChars quotes cs ++ tail) ∨ cs = [] ∨ quotes = 1 ∧ cs = ['"'] := by
  cases cs with
  | nil => exact .inr (.inl rfl)
  | cons c cs =>
    by_cases hthird : c = '"' → quotes = 2
    · obtain ⟨x, l, hl, hx⟩ := multiBasicChars_head hthird cs
      refine .inl fun rest heq => hx ?_
      rw [hl, List.cons_append] at heq
      exact (List.cons.inj heq).1
    · obtain ⟨rfl, hne⟩ := Classical.not_imp.1 hthird
      obtain rfl : quotes = 1 := hquotes.resolve_right hne
      cases cs with
      | nil => exact .inr (.inr ⟨rfl, rfl⟩)
      | cons c' cs =>
        -- the second of two quotes: a third would be escaped
        obtain ⟨x, l, hl, hx⟩ := @multiBasicChars_head 2 c' (fun _ => rfl) cs
        refine .inl fun rest heq => hx ?_
        have hwritten : multiBasicChars 1 ('"' :: c' :: cs) = '"'
            :: multiBasicChars 2 (c' :: cs) := by
          simp [multiBasicChars]
        rw [hwritten, hl, List.cons_append, List.cons_append] at heq
        exact (List.cons.inj (List.cons.inj heq).2).1

theorem multiBasicBody_written {rest : List Char} (hrest : rest.head? ≠ some '"') (cs : List Char) :
    ∀ {quotes : Nat}, quotes ≤ 2 →
      multiBasicBody .text (multiBasicChars quotes cs ++ '"' :: '"' :: '"' :: rest)
        = some (cs, rest) := by
  obtain ⟨hnone, hone, htwo⟩ := closing_text hrest
  induction cs with
  | nil =>
    intro quotes _
    simp [multiBasicChars, multiBasicBody, hnone]
  | cons c cs ih =>
    intro quotes hquotes
    by_cases hc : c = '"'
    · subst hc
      by_cases hthird : quotes = 2
      · have hwritten : multiBasicChars quotes ('"' :: cs) = '\\' :: '"'
            :: multiBasicChars 0 cs := by
          simp [multiBasicChars, hthird]
        rw [hwritten, List.cons_append, List.cons_append, unescapes_multiBasicBody.short _ rfl,
          ih (by omega), emit_some]
      · have hwritten : multiBasicChars quotes ('"' :: cs) = '"' :: multiBasicChars
            (quotes + 1) cs := by
          simp [multiBasicChars, hthird]
        rw [hwritten, List.cons_append]
        obtain hapart | rfl | ⟨hzero, rfl⟩ :=
          @apart_multiBasicChars cs ('"' :: '"' :: '"' :: rest) (quotes + 1) (by omega)
        · rw [multiBasicBody_quote hapart, ih (by omega), emit_some]
        -- the text ends with one or two quotes, and the closing ones follow
        · simp [multiBasicChars, multiBasicBody, hone]
        · simp [multiBasicChars, multiBasicBody, hzero, htwo]
    · have hwritten : multiBasicChars quotes (c :: cs) = (escaped? c).getD [c]
          ++ multiBasicChars 0 cs := by
        simp [multiBasicChars, hc]
      rw [hwritten, List.append_assoc, multiBasicBody_plain hc, ih (by omega), emit_some]

theorem le_longestRun (q : Char) (cs : List Char) : ∀ n, n ≤ longestRun q n cs := by
  induction cs with
  | nil => exact fun n => le_refl n
  | cons c cs ih =>
    intro n
    unfold longestRun
    split_ifs
    · exact (Nat.le_succ n).trans (ih _)
    · exact le_max_left _ _

theorem longestRun_mono (q : Char) (cs : List Char) :
    ∀ {n m : Nat}, n ≤ m → longestRun q n cs ≤ longestRun q m cs := by
  induction cs with
  | nil => exact fun h => h
  | cons c cs ih =>
    intro n m h
    unfold longestRun
    split_ifs
    · exact ih (Nat.succ_le_succ h)
    · exact max_le_max_right _ h

theorem longestRun_tail (q c : Char) (cs : List Char) :
    longestRun q 0 cs ≤ longestRun q 0 (c :: cs) := by
  rw [longestRun]
  split_ifs
  · exact longestRun_mono q cs (Nat.zero_le _)
  · exact le_max_right _ _

/-- Without a run of three, two quotes follow a quote of the text only at the end. -/
theorem apart_of_longestRun {q : Char} {cs : List Char} (h : longestRun q 0 (q :: cs) ≤ 2)
    (tail : List Char) : Apart q (cs ++ tail) ∨ cs = [] ∨ cs = [q] := by
  rcases cs with _ | ⟨a, _ | ⟨b, cs⟩⟩
  · exact .inr (.inl rfl)
  · by_cases ha : a = q
    · exact .inr (.inr (by rw [ha]))
    · exact .inl fun rest heq => ha (List.cons.inj heq).1
  · refine .inl fun rest heq => ?_
    obtain ⟨rfl, hrest⟩ := List.cons.inj heq
    obtain ⟨rfl, -⟩ := List.cons.inj hrest
    have hthree := le_longestRun b cs 3
    simp only [longestRun, if_true] at h
    exact absurd (hthree.trans h) (by decide)

theorem multiLiteralBody_text {c : Char} (htext : isText c ∨ c = '\n') {l : List Char}
    (hquote : c = '\'' → Apart '\'' l) :
    multiLiteralBody (c :: l) = emit c (multiLiteralBody l) := by
  have hreturn : c ≠ '\r' := by
    rintro rfl
    exact absurd htext (by decide)
  have htext' : (isText c || c = '\n') = true := by simpa using htext
  rw [multiLiteralBody]
  · simp [htext']
  · rintro rest rfl rfl
    exact hquote rfl rest rfl
  · rintro rest rfl
    exact absurd rfl hreturn

theorem multiLiteralBody_written {rest : List Char} (hrest : rest.head? ≠ some '\'')
    {cs : List Char} (htext : ∀ c ∈ cs, isText c ∨ c = '\n') (hrun : longestRun '\'' 0 cs ≤ 2) :
    multiLiteralBody (cs ++ '\'' :: '\'' :: '\'' :: rest) = some (cs, rest) := by
  obtain ⟨hnone, hone, htwo⟩ := closing_text hrest
  induction cs with
  | nil => simp [multiLiteralBody, hnone]
  | cons c cs ih =>
    have hbehind :=
      ih (fun x hx => htext x (List.mem_cons_of_mem _ hx)) ((longestRun_tail _ c cs).trans hrun)
    have hhere := htext c List.mem_cons_self
    rw [List.cons_append]
    by_cases hc : c = '\''
    · subst hc
      obtain hapart | rfl | rfl := apart_of_longestRun hrun ('\'' :: '\'' :: '\'' :: rest)
      · rw [multiLiteralBody_text hhere fun _ => hapart, hbehind, emit_some]
      · simp [multiLiteralBody, hone]
      · simp [multiLiteralBody, htwo]
    · rw [multiLiteralBody_text hhere fun h => absurd h hc, hbehind, emit_some]

/-! ## §4. Every text in its form. -/

theorem afterOpening_of_ne {l : List Char} (hline : l.head? ≠ some '\n')
    (hreturn : l.head? ≠ some '\r') : afterOpening l = l := by
  unfold afterOpening
  split
  · exact absurd rfl hline
  · exact absurd rfl hreturn
  · rfl

/-- What needs no escape is text or a line end. -/
theorem isText_of_not_needsEscape {c : Char} (h : needsEscape c = false) : isText c ∨ c = '\n' := by
  by_cases hline : c = '\n'
  · exact .inr hline
  · simpa [needsEscape, hline] using h

/-- Whether a form can hold a text.  Single quotes have no escapes. -/
def Style.Holds (cs : List Char) : Style → Prop
  | .basic => True
  | .literal => ∀ c ∈ cs, isText c ∧ c ≠ '\''
  | .multiBasic => True
  | .multiLiteral => (∀ c ∈ cs, isText c ∨ c = '\n') ∧ longestRun '\'' 0 cs ≤ 2

/-- The form that is chosen for a text can hold it. -/
theorem styleOf_holds (cs : List Char) : (styleOf cs).Holds cs := by
  unfold styleOf
  simp only []
  split_ifs with hbasic hliteral hmultiBasic hmultiLiteral
  · trivial
  · simp only [Bool.and_eq_true, Bool.not_eq_eq_eq_not, Bool.not_true, List.any_eq_false,
      List.contains_eq_mem, decide_eq_false_iff_not] at hliteral
    obtain ⟨⟨hplain, hquote⟩, hline⟩ := hliteral
    intro c hc
    refine ⟨(isText_of_not_needsEscape (by simpa using hplain c hc)).resolve_right ?_, ?_⟩
    · rintro rfl
      exact hline hc
    · rintro rfl
      exact hquote hc
  · trivial
  · simp only [Bool.and_eq_true, Bool.not_eq_eq_eq_not, Bool.not_true,
      List.any_eq_false, decide_eq_true_eq]
      at hmultiLiteral
    exact ⟨fun c hc => isText_of_not_needsEscape (by simpa using hmultiLiteral.1 c hc),
      hmultiLiteral.2⟩
  · trivial
  · trivial

/-- What stands after three opening quotes is the text, with or without the line end in front. -/
theorem afterOpening_start (cs : List Char) {l : List Char}
    (hline : '\n' ∉ cs → l.head? ≠ some '\n') (hreturn : l.head? ≠ some '\r') :
    afterOpening ((if cs.contains '\n' then ['\n'] else []) ++ l) = l := by
  by_cases h : '\n' ∈ cs
  · simp [h, afterOpening]
  · simpa [h] using afterOpening_of_ne (hline h) hreturn

/-- The first character of what is written between three double quotes. -/
theorem head?_multiBasicChars (cs tail : List Char) :
    ('\n' ∉ cs → (multiBasicChars 0 cs ++ '"' :: tail).head? ≠ some '\n')
      ∧ (multiBasicChars 0 cs ++ '"' :: tail).head? ≠ some '\r' := by
  cases cs with
  | nil => simp [multiBasicChars]
  | cons c cs =>
    by_cases hc : c = '"'
    · simp [multiBasicChars, hc]
    cases hw : escaped? c with
    | none =>
      obtain ⟨-, hreturn, -, -⟩ := isText_of_escaped?_eq_none hw
      simp +contextual [multiBasicChars, hc, hw, hreturn, eq_comm]
    | some w =>
      obtain ⟨l, rfl⟩ := escaped?_head hw
      simp [multiBasicChars, hc, hw]

/-- One quote opens a text of its own, unless two more follow. -/
theorem readString_single {l : List Char} :
    (Apart '"' l → readString ('"' :: l) = basicBody .text l)
      ∧ (Apart '\'' l → readString ('\'' :: l) = literalBody l) := by
  constructor
  all_goals
    intro h
    rw [readString]
    rintro rest rfl
    exact h rest rfl

theorem apart_of_head?_ne {q a : Char} {rest : List Char} (h : rest.head? ≠ some q) :
    Apart q (a :: rest) := by
  rintro l heq
  rw [(List.cons.inj heq).2] at h
  exact h rfl

theorem apart_of_ne {q a : Char} (h : a ≠ q) (l : List Char) : Apart q (a :: l) :=
  fun _ heq => h (List.cons.inj heq).1

theorem apart_basicChar (cs : List Char) {rest : List Char} (h : rest.head? ≠ some '"') :
    Apart '"' (cs.flatMap basicChar ++ '"' :: rest) := by
  cases cs with
  | nil => exact apart_of_head?_ne h
  | cons c cs =>
    rw [List.flatMap_cons, List.append_assoc]
    unfold basicChar
    split_ifs with hquote hline
    · exact apart_of_ne (by decide) _
    · exact apart_of_ne (by decide) _
    · cases hw : escaped? c with
      | none => exact apart_of_ne hquote _
      | some w =>
        obtain ⟨l, rfl⟩ := escaped?_head hw
        exact apart_of_ne (by decide) _

/-- **A text reads back from a form that can hold it**, whatever follows it, if that is no quote. -/
theorem readString_writeAs {style : Style} {cs rest : List Char} (h : style.Holds cs)
    (hdouble : rest.head? ≠ some '"') (hsingle : rest.head? ≠ some '\'') :
    readString (writeAs style cs ++ rest) = some (cs, rest) := by
  cases style with
  | basic =>
    have hapart := apart_basicChar cs hdouble
    simp only [writeAs, List.cons_append, List.append_assoc, List.nil_append]
    rw [readString_single.1 hapart, basicBody_written]
  | literal =>
    have hapart : Apart '\'' (cs ++ '\'' :: rest) := by
      cases cs with
      | nil => exact apart_of_head?_ne hsingle
      | cons c cs => exact apart_of_ne (h c List.mem_cons_self).2 _
    simp only [writeAs, List.cons_append, List.append_assoc, List.nil_append]
    rw [readString_single.2 hapart, literalBody_written h]
  | multiBasic =>
    have hopening := head?_multiBasicChars cs ('"' :: '"' :: rest)
    simp only [writeAs, List.cons_append, List.append_assoc, List.nil_append]
    rw [readString, afterOpening_start cs hopening.1 hopening.2,
      multiBasicBody_written hdouble cs (by decide)]
  | multiLiteral =>
    have hhead : '\n' ∉ cs → (cs ++ '\'' :: '\'' :: '\'' :: rest).head? ≠ some '\n' := by
      cases cs <;> simp +contextual [eq_comm]
    have hreturn : (cs ++ '\'' :: '\'' :: '\'' :: rest).head? ≠ some '\r' := by
      cases cs with
      | nil => simp
      | cons c cs =>
        have hc := h.1 c List.mem_cons_self
        simp only [List.cons_append, List.head?_cons, ne_eq, Option.some.injEq]
        rintro rfl
        exact absurd hc (by decide)
    simp only [writeAs, List.cons_append, List.append_assoc, List.nil_append]
    rw [readString, afterOpening_start cs hhead hreturn, multiLiteralBody_written hsingle h.1 h.2]

theorem readString_writeString (cs : List Char) {rest : List Char} (hdouble : rest.head? ≠ some '"')
    (hsingle : rest.head? ≠ some '\'') : readString (writeString cs ++ rest) = some (cs, rest) :=
  readString_writeAs (styleOf_holds cs) hdouble hsingle

end LambdaLift.Toml
