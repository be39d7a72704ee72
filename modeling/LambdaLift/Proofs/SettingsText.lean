/-
  LambdaLift.Proofs.SettingsText
  **SETTINGS READ BACK FROM THEIR TEXT.**

  What settings become as text is up to a codec of the configuration
  format.  All that is asked of it is that plain tables, those of texts and
  truth values under different keys without quotes, can be written and are
  read as what was written, their entries in any order.  Entries are sorted
  before they are used, and what different keys set does not overlap; so
  the order does not matter for what is read.

  The standard codec is lawful in this sense: each line adds one entry to
  the document and leaves the rest of the text alone.

  Main results:
    * `Toml.standard_lawful` — the standard codec keeps what is asked;
    * `Settings.ofEntries_of_perm` — what assignments read as;
    * `Settings.read_back` — settings read back from their text.
-/
import Mathlib
import LambdaLift.Settings.Text
import LambdaLift.Proofs.QuotedText

namespace LambdaLift

namespace Toml

/-! ## §1. What is asked of a codec. -/

/-- A key that can stand without quotes. -/
def IsBareKey (key : String) : Prop := key.toList ≠ [] ∧ ∀ c ∈ key.toList, isBare c = true

/-- A table of texts and truth values, under different keys without quotes. -/
structure Plain (es : Entries) : Prop where
  nodup : (es.map (·.1)).Nodup
  keys : ∀ e ∈ es, IsBareKey e.1
  values : ∀ e ∈ es, (∃ text, e.2 = .scalar (.string text)) ∨ ∃ b, e.2 = .scalar (.boolean b)

/-- **What is asked of a codec**: plain tables can be written, and what was written is read as the
table that it was, up to the order of its entries. -/
structure Codec.Lawful (toml : Codec) : Prop where
  prints : ∀ {es}, Plain es → ∃ text, toml.print es = some text
  parses : ∀ {es text}, Plain es → toml.print es = some text →
    ∃ es', toml.parse text = some es' ∧ es'.Perm es

/-! ## §2. Lines of the standard codec. -/

section

variable {key : String} (h : IsBareKey key)
include h

/-- A key starts with a character that starts nothing else. -/
theorem IsBareKey.exists_head :
    ∃ c l, key.toList = c :: l ∧ c ∉ [' ', '\t', '#', '\n', '\r', '[', '"', '\'', '\ufeff'] := by
  obtain ⟨c, l, hl⟩ := List.exists_cons_of_ne_nil h.1
  refine ⟨c, l, hl, fun hmem => ?_⟩
  have hc := h.2 c (hl ▸ List.mem_cons_self)
  simp only [List.mem_cons, List.not_mem_nil, or_false] at hmem
  rcases hmem with rfl | rfl | rfl | rfl | rfl | rfl | rfl | rfl | rfl
    <;> exact absurd hc (by decide)

theorem IsBareKey.keyPart_eq (rest : List Char) :
    keyPart (key.toList ++ ' ' :: rest) = some (key, ' ' :: rest) := by
  have htake : (key.toList ++ ' ' :: rest).takeWhile isBare = key.toList := by
    rw [List.takeWhile_append_of_pos h.2]
    simp [isBare]
  have hdrop : (key.toList ++ ' ' :: rest).dropWhile isBare = ' ' :: rest := by
    rw [List.dropWhile_append_of_pos h.2]
    simp [isBare]
  obtain ⟨c, l, hl, hc⟩ := h.exists_head
  unfold keyPart
  split
  next heq =>
    rw [hl] at heq
    exact absurd (List.cons.inj heq).1 (by rintro rfl; simp at hc)
  next heq =>
    rw [hl] at heq
    exact absurd (List.cons.inj heq).1 (by rintro rfl; simp at hc)
  next => simp [htake, hdrop, h.1]

theorem IsBareKey.skipBlanks_eq (rest : List Char) :
    skipBlanks (key.toList ++ rest) = key.toList ++ rest := by
  obtain ⟨c, l, hl, hc⟩ := h.exists_head
  have hblank : isBlank c = false := by
    simp only [List.mem_cons, not_or] at hc
    simp [isBlank, hc.1, hc.2.1]
  simp [hl, skipBlanks, hblank]

theorem IsBareKey.key_eq (rest : List Char) :
    Toml.key (key.toList ++ ' ' :: '=' :: rest) = some ([], key, '=' :: rest) := by
  have hnext : skipBlanks (' ' :: '=' :: rest) = '=' :: rest := by simp [skipBlanks, isBlank]
  unfold Toml.key nestingLimit
  rw [keyUpTo, h.skipBlanks_eq, h.keyPart_eq]
  simp [hnext]

theorem IsBareKey.pair_eq (es : Entries) (rest : List Char) :
    Partial.pair ⟨es, none⟩ (key.toList ++ ' ' :: '=' :: rest)
      = (value (skipBlanks rest)).bind fun x =>
        (es.insertNew? key x.1).map fun es => (⟨es, none⟩, x.2) := by
  unfold Partial.pair
  rw [h.key_eq]
  cases hvalue : value (skipBlanks rest) with
  | none => simp [hvalue]
  | some x => cases hnew : es.insertNew? key x.1 <;>
      simp [hvalue, hnew, Partial.update, Entries.define?, Entries.updateDotted]

/-- A line that starts with a key is a key with its value. -/
theorem IsBareKey.lines_eq (fuel : Nat) (p : Partial) (rest : List Char) :
    lines (fuel + 1) p (key.toList ++ rest)
      = (p.pair (key.toList ++ rest)).bind fun x => (endLine x.2).bind (lines fuel x.1) := by
  obtain ⟨c, l, hl, hc⟩ := h.exists_head
  simp only [List.mem_cons, not_or] at hc
  have hskip := h.skipBlanks_eq rest
  rw [hl, List.cons_append] at hskip ⊢
  rw [lines, hskip]
  · split
    next heq => cases heq
    next heq => exact absurd (List.cons.inj heq).1 hc.2.2.2.2.2.1
    next heq =>
      obtain ⟨rfl, rfl⟩ := List.cons.inj heq
      simp [hc]
  · simp

end

/-- The text reads as this value at the end of a line. -/
def Writes (v : List Char) (item : Item) : Prop :=
  ∀ rest, value (skipBlanks (' ' :: v ++ '\n' :: rest)) = some (item, '\n' :: rest)

theorem writes_string (text : List Char) :
    Writes (writeString text) (.scalar (.string (String.ofList text))) := by
  intro rest
  have hread := @readString_writeString text ('\n' :: rest) (by simp) (by simp)
  obtain ⟨c, l, hc, hquote⟩ : ∃ c l, writeString text = c :: l ∧ (c = '"' ∨ c = '\'') := by
    unfold writeString writeAs
    cases styleOf text <;> simp
  rw [hc] at hread ⊢
  have hskip : skipBlanks (' ' :: (c :: l) ++ '\n' :: rest) = c :: l ++ '\n' :: rest := by
    rcases hquote with rfl | rfl <;> simp [skipBlanks, isBlank]
  rw [hskip, value]
  rcases hquote with rfl | rfl <;> simp only [List.cons_append] at hread ⊢
    <;> rw [valueUpTo, hread] <;> rfl

theorem writes_boolean (b : Bool) :
    Writes (if b then "true" else "false").toList (.scalar (.boolean b)) := by
  intro rest
  cases b <;>
    simp [skipBlanks, isBlank, value, valueUpTo, scalarRun, isScalarChar, Char.isAlphanum,
    Char.isAlpha, Char.isUpper,
      Char.isLower, Char.isDigit, scalarOf?, boolean?]

/-- **One line** adds one entry, and the rest of the text is read as it stands. -/
theorem IsBareKey.lines_pair {key : String} {v : List Char} {item : Item} (hkey : IsBareKey key)
    (hvalue : Writes v item) (fuel : Nat) (es : Entries) (rest : List Char) :
    lines (fuel + 1) ⟨es, none⟩ (key.toList ++ ' ' :: '=' :: ' ' :: (v ++ '\n' :: rest))
      = (es.insertNew? key item).bind fun es => lines fuel ⟨es, none⟩ rest := by
  have hend : endLine ('\n' :: rest) = some rest := by simp [endLine, skipBlanks, isBlank]
  rw [hkey.lines_eq, hkey.pair_eq, ← List.cons_append, hvalue rest,
    Option.bind_some, Option.bind_map]
  simp only [hend, Function.comp_def, Option.bind_some]

theorem exists_line {e : String × Item}
    (h : (∃ text, e.2 = .scalar (.string text)) ∨ ∃ b, e.2 = .scalar (.boolean b)) :
    ∃ v, Writes v e.2 ∧ ∃ text, line? e = some text
      ∧ text.toList = e.1.toList ++ ' ' :: '=' :: ' ' :: (v ++ ['\n']) := by
  obtain ⟨key, item⟩ := e
  rcases h with ⟨text, rfl⟩ | ⟨b, rfl⟩
  · have hwrites := writes_string text.toList
    rw [String.ofList_toList] at hwrites
    exact ⟨_, hwrites, _, rfl, by simp⟩
  · exact ⟨_, writes_boolean b, _, rfl, by simp⟩

/-- The text of a plain table: a line for each entry. -/
structure TextOf (es : Entries) (text : List Char) : Prop where
  length : es.length ≤ text.length
  head : text.head? ≠ some '\ufeff'
  lines : ∀ {done fuel}, ((done ++ es).map (·.1)).Nodup → es.length ≤ fuel →
    Toml.lines fuel ⟨done, none⟩ text = some (done ++ es)

theorem TextOf.cons {e : String × Item} {es : Entries} {v text : List Char} (h : TextOf es text)
    (hkey : IsBareKey e.1) (hvalue : Writes v e.2) :
    TextOf (e :: es) (e.1.toList ++ ' ' :: '=' :: ' ' :: (v ++ '\n' :: text)) where
  length := by
    have := h.length
    simp only [List.length_append, List.length_cons]
    omega
  head := by
    obtain ⟨c, l, hl, hc⟩ := hkey.exists_head
    rw [hl]
    rintro heq
    rw [Option.some.inj heq] at hc
    exact absurd hc (by decide)
  lines := by
    intro done fuel hnodup hfuel
    obtain ⟨fuel, rfl⟩ : ∃ n, fuel = n + 1 := ⟨fuel - 1, by simp at hfuel; omega⟩
    have hnew : done.insertNew? e.1 e.2 = some (done ++ [e]) := by
      refine if_neg fun hany => ?_
      obtain ⟨e', he', heq⟩ := List.any_eq_true.1 hany
      rw [List.map_append] at hnodup
      exact (List.nodup_append.1 hnodup).2.2 _ (List.mem_map_of_mem he') _ List.mem_cons_self
        (of_decide_eq_true heq)
    have hrest := @h.lines (done ++ [e]) fuel (by simpa using hnodup) (by simpa using hfuel)
    rw [hkey.lines_pair hvalue, hnew, Option.bind_some, hrest, List.append_assoc,
      List.singleton_append]

/-- Plain tables are written line by line. -/
theorem exists_textOf {es : Entries} (hkeys : ∀ e ∈ es, IsBareKey e.1)
    (hvalues : ∀ e ∈ es, (∃ text, e.2 = .scalar (.string text)) ∨ ∃ b, e.2 = .scalar (.boolean b)) :
    ∃ texts, es.mapM line? = some texts ∧ TextOf es (String.join texts).toList := by
  induction es with
  | nil => exact ⟨[], rfl, by simp, by simp, fun _ _ => by simp [Toml.lines]⟩
  | cons e es ih =>
    obtain ⟨texts, htexts, htextOf⟩ := ih (fun e he => hkeys e (List.mem_cons_of_mem _ he))
      fun e he => hvalues e (List.mem_cons_of_mem _ he)
    obtain ⟨v, hv, text, htext, htoList⟩ := exists_line (hvalues e List.mem_cons_self)
    refine ⟨text :: texts, by simp [List.mapM_cons, htext, htexts], ?_⟩
    have hline := htextOf.cons (hkeys e List.mem_cons_self) hv
    rwa [String.join_cons, String.toList_append, htoList, List.append_assoc, List.cons_append,
      List.cons_append, List.cons_append, List.append_assoc, List.singleton_append]

/-- **The standard codec reads what it writes.** -/
theorem standard_lawful : standard.Lawful := by
  have hread : ∀ {es}, Plain es → ∃ text, standard.print es = some text
      ∧ standard.parse text = some es := by
    intro es hes
    obtain ⟨texts, htexts, htextOf⟩ := exists_textOf hes.keys hes.values
    refine ⟨String.join texts, by simp [standard, htexts], ?_⟩
    show document? (String.join texts).toList = some es
    unfold document?
    split
    next heq => exact absurd (by rw [heq]; rfl) htextOf.head
    next => exact @htextOf.lines [] _ hes.nodup (htextOf.length.trans (Nat.le_succ _))
  refine ⟨fun hes => ?_, fun {es text} hes hprint => ?_⟩
  · obtain ⟨text, hprint, -⟩ := hread hes
    exact ⟨text, hprint⟩
  · obtain ⟨text', hprint', hparse⟩ := hread hes
    obtain rfl := Option.some.inj (hprint.symm.trans hprint')
    exact ⟨es, hparse, .refl _⟩

end Toml

namespace Settings

open Toml (Codec Item Scalar Entries Plain)

/-! ## §3. Assignments. -/

/-- A key with what it is set to. -/
inductive Assignment where
  | separator (text : String)
  | lambdaStem (text : String)
  | objectStem (text : String)
  | capturedMarker (text : String)
  | validate (flag : Bool)

namespace Assignment

def key : Assignment → String
  | separator _ => "separator"
  | lambdaStem _ => "lambda_prefix"
  | objectStem _ => "object_prefix"
  | capturedMarker _ => "captured_marker"
  | validate _ => "validate"

/-- The value in a document. -/
def item : Assignment → Item
  | separator text | lambdaStem text | objectStem text | capturedMarker text =>
    .scalar (.string text)
  | validate flag => .scalar (.boolean flag)

/-- The settings with this key set. -/
def set (s : Settings) : Assignment → Settings
  | separator text => { s with separator := text }
  | lambdaStem text => { s with lambdaStem := text }
  | objectStem text => { s with objectStem := text }
  | capturedMarker text => { s with capturedMarker := text }
  | validate flag => { s with validate := flag }

def entry (a : Assignment) : String × Item := (a.key, a.item)

end Assignment

/-- The assignments that settings consist of. -/
def assignments (s : Settings) : List Assignment :=
  [.separator s.separator, .lambdaStem s.lambdaStem, .objectStem s.objectStem,
    .capturedMarker s.capturedMarker, .validate s.validate]

namespace Assignment

variable (a : Assignment)

theorem entry_injective : Function.Injective entry := by
  intro a b h
  cases a <;> cases b <;> simp_all [entry, key, item]

/-- A key is set as its assignment says. -/
theorem setKey_eq (s : Settings) : s.setKey a.key a.item = .ok (set s a) := by
  cases a <;> simp [setKey, key, item, asString, asBoolean, set]

theorem mem_assignments_set {b : Assignment} {s : Settings} :
    b ∈ (set s a).assignments ↔ b = a ∨ b ∈ s.assignments ∧ b.key ≠ a.key := by
  cases a <;> cases b <;> simp [set, assignments, key]

/-- What different keys set does not overlap. -/
theorem set_comm {a b : Assignment} (h : a.key = b.key → a = b) (s : Settings) :
    set (set s a) b = set (set s b) a := by
  cases a <;> cases b <;> first | rfl | rw [h rfl]

end Assignment

/-- Assignments to different keys are a plain table. -/
theorem plain_entries {as : List Assignment} (h : (as.map Assignment.key).Nodup) :
    Plain (as.map Assignment.entry) where
  nodup := by simpa [Function.comp_def, Assignment.entry] using h
  keys e he := by
    obtain ⟨a, -, rfl⟩ := List.mem_map.1 he
    cases a <;> exact ⟨by simp [Assignment.entry, Assignment.key],
      List.all_eq_true.1 (by simp only [Assignment.entry, Assignment.key]; decide)⟩
  values e he := by
    obtain ⟨a, -, rfl⟩ := List.mem_map.1 he
    cases a with
    | validate flag => exact .inr ⟨flag, rfl⟩
    | _ text => exact .inl ⟨text, rfl⟩

section

variable {as : List Assignment}

theorem foldlM_setKey (bs : List Assignment) (s : Settings) :
    (bs.map Assignment.entry).foldlM (fun s e => s.setKey e.1 e.2) s
      = .ok (bs.foldl Assignment.set s) := by
  induction bs generalizing s with
  | nil => rfl
  | cons b bs ih =>
    rw [List.map_cons, List.foldlM_cons, Assignment.entry, b.setKey_eq]
    exact ih _

/-- **Assignments to different keys** read as the default with the keys set, in any order. -/
theorem ofEntries_of_perm {es : Entries} (h : (as.map Assignment.key).Nodup)
    (hperm : es.Perm (as.map Assignment.entry)) :
    ofEntries es = .ok (as.foldl Assignment.set {}) := by
  have hsorted : (es.mergeSort fun a b => a.1 ≤ b.1).Perm (as.map Assignment.entry) :=
    (es.mergeSort_perm _).trans hperm
  obtain ⟨bs, hbs⟩ : (es.mergeSort fun a b => a.1 ≤ b.1)
      ∈ Set.range (List.map Assignment.entry) := by
    rw [Set.range_list_map]
    intro e he
    obtain ⟨a, -, rfl⟩ := List.mem_map.1 (hsorted.subset he)
    exact ⟨a, rfl⟩
  rw [← hbs, List.map_perm_map_iff Assignment.entry_injective] at hsorted
  rw [ofEntries, ← hbs, foldlM_setKey]
  refine congrArg _ (hsorted.foldl_eq' (fun a ha b hb s => ?_) _)
  exact Assignment.set_comm (List.inj_on_of_nodup_map h (hsorted.subset ha) (hsorted.subset hb)) s

theorem mem_assignments_foldl {b : Assignment} {s : Settings} (h : (as.map Assignment.key).Nodup) :
    b ∈ (as.foldl Assignment.set s).assignments ↔ b ∈ as ∨ b ∈ s.assignments
      ∧ b.key ∉ as.map Assignment.key := by
  induction as generalizing s with
  | nil => simp
  | cons a as ih =>
    obtain ⟨ha, h⟩ := List.nodup_cons.1 h
    have hkey : b = a → b.key ∉ as.map Assignment.key := by rintro rfl; exact ha
    rw [List.foldl_cons, ih h, Assignment.mem_assignments_set, List.mem_cons,
      List.map_cons, List.mem_cons]
    tauto

/-- A document with a key that no assignment has is refused. -/
theorem exists_problem {es : Entries} {e : String × Item} (he : e ∈ es)
    (hkey : ∀ a : Assignment, a.key ≠ e.1) : ∃ problem, ofEntries es = .error problem := by
  have hrefused : ∀ (s : Settings), ∃ problem, s.setKey e.1 e.2 = .error problem := by
    intro s
    refine ⟨.unknownKey e.1, ?_⟩
    unfold setKey
    split_ifs with h h h h h
    · exact absurd h.symm (hkey (.separator ""))
    · exact absurd h.symm (hkey (.lambdaStem ""))
    · exact absurd h.symm (hkey (.objectStem ""))
    · exact absurd h.symm (hkey (.capturedMarker ""))
    · exact absurd h.symm (hkey (.validate true))
    · rfl
  have hfold : ∀ (es : Entries) (s : Settings), e ∈ es →
      ∃ problem, es.foldlM (fun s e => s.setKey e.1 e.2) s = .error problem := by
    intro es
    induction es with
    | nil => intro s he; cases he
    | cons x es ih =>
      intro s he
      rw [List.foldlM_cons]
      cases hx : s.setKey x.1 x.2 with
      | error problem => exact ⟨problem, rfl⟩
      | ok s' =>
        rcases List.mem_cons.1 he with rfl | he
        · obtain ⟨problem, hproblem⟩ := hrefused s
          cases hproblem.symm.trans hx
        · exact ih s' he
  exact hfold _ _ (List.mem_mergeSort.2 he)

/-- **Assignments to different keys**, written and read. -/
theorem exists_read {toml : Codec} (hlawful : toml.Lawful) (h : (as.map Assignment.key).Nodup) :
    ∃ text, toml.print (as.map Assignment.entry) = some text
      ∧ read toml text = .ok (as.foldl Assignment.set {}) := by
  obtain ⟨text, hprint⟩ := hlawful.prints (plain_entries h)
  obtain ⟨es, hparse, hperm⟩ := hlawful.parses (plain_entries h) hprint
  refine ⟨text, hprint, ?_⟩
  rw [read, hparse]
  exact ofEntries_of_perm h hperm

end

theorem nodup_assignments (s : Settings) : (s.assignments.map Assignment.key).Nodup := by
  simp [assignments, Assignment.key]

theorem foldl_assignments (s : Settings) : s.assignments.foldl Assignment.set {} = s := rfl

/-- **Settings read back from their text**, whatever lawful codec makes a text of them and whatever
the texts among them hold.  Lines can be left out and put in any order: a key that is written has
its value, and any other has its default.  And a key that does not exist makes the whole text
fail. -/
theorem read_back (toml : Codec) (h : toml.Lawful) :
    (∀ s : Settings, ∃ text, s.write toml = some text ∧ read toml text = .ok s)
    ∧ (∀ as : List Assignment, (as.map Assignment.key).Nodup →
      ∃ text s, toml.print (as.map Assignment.entry) = some text ∧ read toml text = .ok s
        ∧ (∀ a ∈ as, a ∈ s.assignments)
        ∧ ∀ b ∈ ({} : Settings).assignments, b.key ∉ as.map Assignment.key → b ∈ s.assignments)
    ∧ (∀ es, Plain es → (∃ e ∈ es, ∀ a : Assignment, a.key ≠ e.1) →
      ∃ text problem, toml.print es = some text ∧ read toml text = .error problem)
    ∧ ∀ text es, toml.parse text = some es → (∃ e ∈ es, ∀ a : Assignment, a.key ≠ e.1) →
      ∃ problem, read toml text = .error problem := by
  refine ⟨fun s => ?_, fun as has => ?_, fun es hes hunknown => ?_,
    fun text es hparse hunknown => ?_⟩
  · obtain ⟨text, hprint, hread⟩ := exists_read h s.nodup_assignments
    exact ⟨text, hprint, hread.trans (congrArg _ s.foldl_assignments)⟩
  · obtain ⟨text, hprint, hread⟩ := exists_read h has
    exact ⟨text, _, hprint, hread, fun _ ha => (mem_assignments_foldl has).2 (.inl ha),
      fun _ hb hkey => (mem_assignments_foldl has).2 (.inr ⟨hb, hkey⟩)⟩
  · obtain ⟨text, hprint⟩ := h.prints hes
    obtain ⟨es', hparse, hperm⟩ := h.parses hes hprint
    obtain ⟨e, he, hkey⟩ := hunknown
    obtain ⟨problem, hproblem⟩ := exists_problem (hperm.mem_iff.2 he) hkey
    exact ⟨text, problem, hprint, by rw [read, hparse]; exact hproblem⟩
  · obtain ⟨e, he, hkey⟩ := hunknown
    obtain ⟨problem, hproblem⟩ := exists_problem he hkey
    exact ⟨problem, by rw [read, hparse]; exact hproblem⟩

/-- Settings with a text that needs every kind of care, in the standard codec; and two lines out of
order. -/
theorem read_back_standard : Toml.standard.Lawful
    ∧ (∃ text, ({ separator := "\"'\\\n" } : Settings).write Toml.standard = some text
      ∧ read Toml.standard text = .ok { separator := "\"'\\\n" })
    ∧ ∃ text s, Toml.standard.print [("validate", .scalar (.boolean false)),
        ("separator", .scalar (.string ""))] = some text ∧ read Toml.standard text = .ok s
      ∧ s.validate = false ∧ s.separator = "" ∧ s.lambdaStem = "lambda" := by
  obtain ⟨hwritten, hsome, -⟩ := read_back Toml.standard Toml.standard_lawful
  refine ⟨Toml.standard_lawful, hwritten _, ?_⟩
  obtain ⟨text, s, hprint, hread, hmem, hdefault⟩ := hsome [.validate false, .separator ""]
    (by simp [Assignment.key])
  have hlambda := hdefault (.lambdaStem "lambda") (by simp [assignments]) (by simp [Assignment.key])
  refine ⟨text, s, hprint, hread, ?_⟩
  simp [assignments] at hmem hlambda
  exact ⟨hmem.1, hmem.2, hlambda.symm⟩

end Settings

end LambdaLift
