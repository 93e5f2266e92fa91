import Fluent.Proofs.Displayed
import Fluent.Proofs.Escapes

/-!
# Texts as string literals

Any text can be the value of a string literal. Its backslashes and quotes are written behind a backslash and its line
feeds as code points, and so may be whatever else. The quote behind the last character is the first one to end the
literal, and the literal has the text as its value.

* `Writes`: the ways to write a text between quotes.
* `Writes.units`, `Writes.isStringBody`: what is written has its text for a meaning and is read to its end.
* `parse_literal`: a text that is written in a placeable comes back.
-/

namespace Fluent

open Text

/-- A character between the quotes of a string literal: as it is, behind a backslash, or as a code point. -/
inductive WritesChar : Char → List Char → Prop
  | plain {c : Char} : c ∉ ['\\', '"', '\n'] → WritesChar c [c]
  | preceded {c : Char} : c ∈ ['\\', '"'] → WritesChar c ['\\', c]
  | short {c : Char} {ds : List Char} : ds.length = 4 → Denotes ds c.toNat → WritesChar c ('\\' :: 'u' :: ds)
  | long {c : Char} {ds : List Char} : ds.length = 6 → Denotes ds c.toNat → WritesChar c ('\\' :: 'U' :: ds)

/-- A text between the quotes of a string literal, in any of the ways to write it: for each character, itself where it
may stand there, or one of its escapes. -/
inductive Writes : List Char → List Char → Prop
  | nil : Writes [] []
  | cons {c : Char} {value text raw : List Char} : WritesChar c text → Writes value raw →
      Writes (c :: value) (text ++ raw)

/-- A character as it is written if it need not be a code point. -/
def literalChar (c : Char) : List Char :=
  if c ∈ ['\\', '"'] then ['\\', c] else if c = '\n' then "\\u000A".toList else [c]

/-- A text with as few code points as can be. -/
def literal (value : List Char) : List Char := value.flatMap literalChar

theorem writesChar_literalChar (c : Char) : WritesChar c (literalChar c) := by
  unfold literalChar
  split
  · rename_i hc
    exact .preceded hc
  · rename_i hc
    split
    · rename_i hbreak
      subst hbreak
      have hdigits : Denotes "000A".toList '\n'.toNat := denotes_iff.2 (by decide)
      exact .short rfl hdigits
    · rename_i hbreak
      refine .plain ?_
      simp only [List.mem_cons, List.not_mem_nil, or_false, not_or] at hc ⊢
      exact ⟨hc.1, hc.2, hbreak⟩

/-- **Every text can be written.** -/
theorem writes_literal (value : List Char) : Writes value (literal value) := by
  induction value with
  | nil => exact .nil
  | cons c value ih => exact .cons (writesChar_literalChar c) ih

section

variable {c : Char} {cs ds text value raw : List Char} {n : Nat}

/-! ## What is written has a meaning -/

theorem isAt_toNat (c : Char) : IsAt c.toNat c := by
  have hvalid : c.toNat.isValidChar := c.valid
  unfold IsAt
  rw [if_pos hvalid]

theorem WritesChar.isUnit (h : WritesChar c text) : IsUnit text c := by
  cases h with
  | plain hc => exact .plain fun heq => hc (heq ▸ List.mem_cons_self)
  | preceded hc =>
    simp only [List.mem_cons, List.not_mem_nil, or_false] at hc
    rcases hc with rfl | rfl
    · exact .backslash
    · exact .quote
  | short hlength hds => exact .short hlength hds (isAt_toNat c)
  | long hlength hds => exact .long hlength hds (isAt_toNat c)

/-- **What is written has its text for a meaning.** -/
theorem Writes.units (h : Writes value raw) : Units raw value := by
  induction h with
  | nil => exact .nil
  | cons hchar _ ih => exact .cons hchar.isUnit ih

/-! ## What is written is read to its end -/

theorem stringBody_plain (hc : c ∉ ['\\', '"', '\n']) :
    stringBody (c :: cs) = (c :: (stringBody cs).1, (stringBody cs).2) := by
  simp only [List.mem_cons, List.not_mem_nil, or_false, not_or] at hc
  rw [stringBody]
  · exact hc.2.1
  · exact hc.2.2
  · exact fun heq => absurd heq hc.1
  · exact fun _ _ heq => absurd heq hc.1

/-- A backslash takes the character behind it along, be that a quote. -/
theorem stringBody_escape (hc : c ≠ '\n') :
    stringBody ('\\' :: c :: cs) = ('\\' :: c :: (stringBody cs).1, (stringBody cs).2) := by
  rw [stringBody, if_neg hc]

/-- Digits neither end a string nor are they escapes. -/
theorem stringBody_digits (hds : Denotes ds n) (cs : List Char) :
    stringBody (ds ++ cs) = (ds ++ (stringBody cs).1, (stringBody cs).2) := by
  have hplain : ∀ d ∈ ['\\', '"', '\n'], isHexDigit d = false := by simp [isHexDigit, Char.isDigit]
  obtain ⟨hall, -⟩ := denotes_iff.1 hds
  clear hds
  induction ds with
  | nil => rfl
  | cons d ds ih =>
    obtain ⟨hd, hds⟩ := Bool.and_eq_true_iff.1 hall
    have hmem : d ∉ ['\\', '"', '\n'] := fun hmem => by
      rw [hplain d hmem] at hd
      cases hd
    rw [List.cons_append, stringBody_plain hmem, ih hds, List.cons_append]

theorem WritesChar.stringBody (h : WritesChar c text) (cs : List Char) :
    stringBody (text ++ cs) = (text ++ (stringBody cs).1, (stringBody cs).2) := by
  cases h with
  | plain hc => exact stringBody_plain hc
  | preceded hc =>
    refine stringBody_escape ?_
    rintro rfl
    exact absurd hc (by decide)
  | short _ hds =>
    have hmarker : 'u' ≠ '\n' := by decide
    rw [List.cons_append, List.cons_append, stringBody_escape hmarker, stringBody_digits hds]
    rfl
  | long _ hds =>
    have hmarker : 'U' ≠ '\n' := by decide
    rw [List.cons_append, List.cons_append, stringBody_escape hmarker, stringBody_digits hds]
    rfl

/-- **What is written is read to its end**: the next quote is the one that closes the literal. -/
theorem Writes.isStringBody (h : Writes value raw) : IsStringBody raw := by
  intro rest
  induction h with
  | nil => rfl
  | cons hchar _ ih => rw [List.append_assoc, hchar.stringBody, ih]

end

/-- A placeable that holds a text as it is written. -/
theorem Writes.oneLine {value raw : String} (h : Writes value.toList raw.toList) {limit : Nat} (hlimit : 0 < limit) :
    Pattern.OneLine limit ⟨[.placeable ⟨.string value raw default, default⟩], default⟩ := by
  have hvalue : (Expression.string value raw default).WellFormed := unescape_eq_ok_iff.2 h.units
  have hlegible : PatternElement.Legible (.placeable ⟨.string value raw default, default⟩) := h.isStringBody
  refine ⟨⟨by simp, ⟨hvalue, rfl⟩, trivial⟩, ?_, ⟨.singleton _, by simp⟩, by simp, ?_, ?_⟩
  · intro e he
    obtain rfl := List.mem_singleton.1 he
    exact hlegible
  · change (displayElements _).toList.head? ≠ some ' '
    obtain ⟨rest, hrest⟩ := exists_brace_displayElements ⟨.string value raw default, default⟩ []
    rw [hrest]
    simp
  · intro k hk
    obtain rfl : k = 1 := List.mem_singleton.1 hk
    exact hlimit

/-- **Any text comes back from a string literal.** There is a way to write it between the quotes, and whichever way is
taken, the literal is the only element of the only entry, with the text as its value. -/
theorem parse_literal (o : ParseOptions) (ho : 0 < o.maxNesting) (value : String) :
    Writes value.toList (literal value.toList) ∧
    ∀ raw : String, Writes value.toList raw.toList →
      ∃ m, (parse o ("m = \x7b \"" ++ raw ++ "\" \x7d")).body = [.message m] ∧
        m.unlocated = ⟨⟨"m", default⟩, some ⟨[.placeable ⟨.string value raw default, default⟩], default⟩, [], none,
          default⟩ := by
  refine ⟨writes_literal _, fun raw hraw => ?_⟩
  obtain ⟨m, hbody, hequal⟩ := (hraw.oneLine ho).parse_alone o.duplicates
  have hsource : "m = \x7b \"" ++ raw ++ "\" \x7d" =
      "m = " ++ Pattern.display ⟨[.placeable ⟨.string value raw default, default⟩], default⟩ := by
    refine String.toList_inj.1 ?_
    simp [Pattern.display, displayElements, PatternElement.display, Placeable.display, Expression.display,
      String.toList_append]
  exact ⟨m, hsource ▸ hbody, hequal⟩

/-- A brace, a quote, a carriage return and a letter that is written as a code point. -/
theorem parse_literal_brace :
    0 < (ParseOptions.mk .reject 1).maxNesting ∧ Writes "\x7d\"\ré".toList "\x7d\\\"\r\\U0000E9".toList ∧
      ∃ m, (parse ⟨.reject, 1⟩ ("m = \x7b \"" ++ "\x7d\\\"\r\\U0000E9" ++ "\" \x7d")).body = [.message m] ∧
        m.unlocated = ⟨⟨"m", default⟩,
          some ⟨[.placeable ⟨.string "\x7d\"\ré" "\x7d\\\"\r\\U0000E9" default, default⟩], default⟩, [], none,
          default⟩ := by
  have hlimit : 0 < (ParseOptions.mk .reject 1).maxNesting := Nat.zero_lt_one
  have hdigits : Denotes "0000E9".toList 'é'.toNat := denotes_iff.2 (by decide)
  have hwrites : Writes "\x7d\"\ré".toList "\x7d\\\"\r\\U0000E9".toList :=
    .cons (.plain (by decide)) (.cons (.preceded (by decide)) (.cons (.plain (by decide))
      (.cons (.long rfl hdigits) .nil)))
  exact ⟨hlimit, hwrites, (parse_literal ⟨.reject, 1⟩ hlimit "\x7d\"\ré").2 _ hwrites⟩

end Fluent
