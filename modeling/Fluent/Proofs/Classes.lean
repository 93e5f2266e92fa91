import Fluent.CharSet.ClassText
import Fluent.Proofs.Escapes

/-!
# Reading character classes

The text of a set is a class as regular expressions have it, and reading it by their rules gives the ranges of the set.
Inside a class a character stands for itself, unless it is a backslash; behind a backslash stands punctuation that is
meant as it is, or a code point in hexadecimal digits. Two characters with a dash between them are the bounds of a
range. A bracket may open another class, a circumflex at the beginning makes a complement, and two signs of a kind may
be an operator. All of that is recognized here, and none of it is read: the text of a set has nothing of the kind.

* `CharSet.readClass?`: the ranges of a class, by those rules.
* `readChar?_classChar`, `readItem?_classItem`, `readItems?_flatMap`: a character, a range and ranges are read to their
  end, whatever is behind them.
* `readClass?_classText`: **the text of a set reads back**.
-/

namespace Fluent

namespace CharSet

/-! ## The rules -/

/-- Punctuation that stands for itself behind a backslash. Angle brackets do not. -/
def isEscapable (c : Char) : Bool :=
  0x21 ≤ c.toNat && c.toNat ≤ 0x7E && !c.isAlphanum && c != '<' && c != '>'

/-- The character at a code point that is written in hexadecimal digits. -/
def readCodePoint? (digits : List Char) : Option Char :=
  if digits ≠ [] ∧ digits.all Text.isHexDigit ∧ (Text.hexValue digits).isValidChar then
    some (Char.ofNat (Text.hexValue digits))
  else none

/-- A character inside a class, and what is behind it. -/
def readChar? : List Char → Option (Char × List Char)
  | [] => none
  | '\\' :: 'x' :: '{' :: cs =>
    match cs.dropWhile (· ≠ '}') with
    | [] => none
    | _ :: rest => (readCodePoint? (cs.takeWhile (· ≠ '}'))).map (·, rest)
  | '\\' :: c :: cs => if isEscapable c then some (c, cs) else none
  | ['\\'] => none
  | c :: cs => some (c, cs)

/-- A range or a character inside a class, and what is behind it. A dash makes a range, unless it is the last character
of the class or the first of an operator. The bounds of a range are in order. -/
def readItem? (cs : List Char) : Option (CharRange × List Char) := do
  let (first, rest) ← readChar? cs
  match rest with
  | '-' :: ']' :: _ | '-' :: '-' :: _ => return (.single first, rest)
  | '-' :: behind =>
    let (last, rest) ← readChar? behind
    if h : first ≤ last then return (⟨first, last, h⟩, rest) else none
  | _ => return (.single first, rest)

theorem length_lt_of_readChar? {cs rest : List Char} {c : Char} (h : readChar? cs = some (c, rest)) :
    rest.length < cs.length := by
  unfold readChar? at h
  split at h
  · cases h
  · rename_i cs
    split at h
    · cases h
    · rename_i x rest' hdrop
      obtain ⟨d, -, hd⟩ := Option.map_eq_some_iff.1 h
      obtain rfl := (Prod.mk.inj hd).2
      have hle := (List.dropWhile_suffix (· ≠ '}') (l := cs)).length_le
      rw [hdrop, List.length_cons] at hle
      simp only [List.length_cons]
      omega
  · split at h
    · obtain rfl := (Prod.mk.inj (Option.some.inj h)).2
      simp only [List.length_cons]
      omega
    · cases h
  · cases h
  · obtain rfl := (Prod.mk.inj (Option.some.inj h)).2
    exact Nat.lt_succ_self _

theorem length_lt_of_readItem? {cs rest : List Char} {r : CharRange} (h : readItem? cs = some (r, rest)) :
    rest.length < cs.length := by
  obtain ⟨⟨first, behind⟩, hfirst, h⟩ := Option.bind_eq_some_iff.1 h
  have hlt := length_lt_of_readChar? hfirst
  simp only at h
  split at h
  · obtain rfl := (Prod.mk.inj (Option.some.inj h)).2
    exact hlt
  · obtain rfl := (Prod.mk.inj (Option.some.inj h)).2
    exact hlt
  · obtain ⟨⟨last, rest'⟩, hlast, h⟩ := Option.bind_eq_some_iff.1 h
    have hlt' := length_lt_of_readChar? hlast
    simp only at h
    split at h
    · obtain rfl := (Prod.mk.inj (Option.some.inj h)).2
      rw [List.length_cons] at hlt
      omega
    · cases h
  · obtain rfl := (Prod.mk.inj (Option.some.inj h)).2
    exact hlt

/-- What a class holds up to the bracket that closes it, and what is behind that. -/
def readItems? (cs : List Char) : Option (List CharRange × List Char) :=
  match cs with
  | ']' :: rest => some ([], rest)
  | '[' :: _ | '&' :: '&' :: _ | '-' :: '-' :: _ | '~' :: '~' :: _ => none
  | cs =>
    match _h : readItem? cs with
    | none => none
    | some (r, rest) => (readItems? rest).map fun (rs, behind) => (r :: rs, behind)
termination_by cs.length
decreasing_by exact length_lt_of_readItem? _h

/-- The ranges of a class and what is behind it. Right after the opening bracket a closing one stands for itself, and so
do dashes. -/
def readClass? : List Char → Option (List CharRange × List Char)
  | '[' :: '^' :: _ => none
  | '[' :: ']' :: cs => (readItems? cs).map fun (rs, behind) => (.single ']' :: rs, behind)
  | '[' :: cs =>
    (readItems? (cs.dropWhile (· = '-'))).map fun (rs, behind) =>
      ((cs.takeWhile (· = '-')).map CharRange.single ++ rs, behind)
  | _ => none

/-! ## Characters -/

/-- Characters that mean something are punctuation. -/
theorem isEscapable_of_isRegexMark {c : Char} (h : isRegexMark c = true) : isEscapable c = true := by
  have hall : "\\.+*?()|[]{}^$#&-~".toList.all isEscapable = true := by decide
  exact List.all_eq_true.1 hall c (List.contains_iff_mem.1 h)

/-- How a character is written inside a class: as it is, behind a backslash, or as a code point. -/
theorem classChar_cases (c : Char) :
    (classChar c = [c] ∧ c ∉ ['\\', '[', ']', '^', '-', '&', '~']) ∨ (classChar c = ['\\', c] ∧ isEscapable c = true) ∨
      ∃ digits, classChar c = '\\' :: 'x' :: '{' :: (digits ++ ['}']) ∧ digits ≠ [] ∧
        Text.Denotes digits c.toNat := by
  have hword : ['\\', '[', ']', '^', '-', '&', '~'].all (!·.isAlphanum) = true := by decide
  have hmark : ['\\', '[', ']', '^', '-', '&', '~'].all isRegexMark = true := by decide
  have hdigit : ∀ v < 16, Text.IsDigit v.digitChar.toUpper v := by decide
  unfold classChar
  split
  · rename_i hc
    refine .inl ⟨rfl, fun hmem => ?_⟩
    simpa [hc] using List.all_eq_true.1 hword c hmem
  · split
    · split
      · rename_i hc
        exact .inr (.inl ⟨rfl, isEscapable_of_isRegexMark hc⟩)
      · rename_i hc
        exact .inl ⟨rfl, fun hmem => hc (List.all_eq_true.1 hmark c hmem)⟩
    · refine .inr (.inr ⟨_, rfl, ?_, Text.denotes_toDigits hdigit c.toNat⟩)
      rw [ne_eq, List.map_eq_nil_iff]
      exact Nat.toDigits_ne_nil

/-- What is written for a character begins with no sign that has a meaning of its own where an item may begin. -/
theorem exists_classChar_eq_cons (c : Char) : ∃ x xs, classChar c = x :: xs ∧ x ∉ ['[', ']', '^', '-', '&', '~'] := by
  rcases classChar_cases c with ⟨heq, hc⟩ | ⟨heq, -⟩ | ⟨digits, heq, -, -⟩
  · exact ⟨c, [], heq, fun hmem => hc (List.mem_cons_of_mem _ hmem)⟩
  · exact ⟨'\\', _, heq, by decide⟩
  · exact ⟨'\\', _, heq, by decide⟩

theorem readCodePoint?_of_denotes {digits : List Char} {c : Char} (hne : digits ≠ [])
    (h : Text.Denotes digits c.toNat) : readCodePoint? digits = some c := by
  obtain ⟨hall, hvalue⟩ := Text.denotes_iff.1 h
  have hvalid : c.toNat.isValidChar := c.valid
  rw [readCodePoint?, hvalue, if_pos ⟨hne, hall, hvalid⟩, Char.ofNat_toNat]

/-- Digits are read up to the brace behind them. -/
theorem readChar?_codePoint {digits : List Char} {c : Char} (hne : digits ≠ []) (h : Text.Denotes digits c.toNat)
    (rest : List Char) : readChar? ('\\' :: 'x' :: '{' :: (digits ++ '}' :: rest)) = some (c, rest) := by
  have hbrace : Text.isHexDigit '}' = false := by decide
  have hdigits : ∀ d ∈ digits, decide (d ≠ '}') = true := by
    intro d hd
    refine decide_eq_true ?_
    rintro rfl
    rw [List.all_eq_true.1 (Text.denotes_iff.1 h).1 _ hd] at hbrace
    cases hbrace
  rw [readChar?, List.dropWhile_append_of_pos hdigits, List.takeWhile_append_of_pos hdigits]
  simp [readCodePoint?_of_denotes hne h]

/-- **A character reads back**, whatever is behind it. -/
theorem readChar?_classChar (c : Char) (rest : List Char) : readChar? (classChar c ++ rest) = some (c, rest) := by
  rcases classChar_cases c with ⟨heq, hc⟩ | ⟨heq, hc⟩ | ⟨digits, heq, hne, h⟩
  · have hslash : c ≠ '\\' := fun h => hc (h ▸ List.mem_cons_self)
    rw [heq, List.singleton_append, readChar?] <;> simp [hslash]
  · have hx : c ≠ 'x' := by
      rintro rfl
      revert hc
      decide
    rw [heq, List.cons_append, List.singleton_append, readChar?, if_pos hc]
    simp [hx]
  · rw [heq]
    simpa using readChar?_codePoint hne h rest

/-! ## Ranges -/

/-- **A range reads back**, unless a dash is behind it. -/
theorem readItem?_classItem (r : CharRange) {rest : List Char} (hrest : rest.head? ≠ some '-') :
    readItem? (r.classItem ++ rest) = some (r, rest) := by
  obtain ⟨first, last, hle⟩ := r
  unfold readItem? CharRange.classItem
  by_cases hsame : last = first
  · subst hsame
    rw [if_pos rfl, List.append_nil, readChar?_classChar]
    simp only [Option.bind_eq_bind, Option.bind_some]
    split
    · exact absurd rfl hrest
    · exact absurd rfl hrest
    · exact absurd rfl hrest
    · rfl
  · -- the bound behind the dash begins with no sign that would change what the dash means
    obtain ⟨x, xs, hlast, hx⟩ := exists_classChar_eq_cons last
    simp only [List.mem_cons, List.not_mem_nil, or_false, not_or] at hx
    have hread := readChar?_classChar last rest
    rw [hlast, List.cons_append] at hread
    rw [if_neg hsame, hlast, List.append_assoc, List.cons_append, List.cons_append, readChar?_classChar]
    simp only [Option.bind_eq_bind, Option.bind_some]
    split
    · rename_i heq
      simp [hx] at heq
    · rename_i heq
      simp [hx] at heq
    · rename_i behind _ _ heq
      obtain rfl := (List.cons.inj heq).2
      rw [hread, Option.bind_some, dif_pos hle]
      rfl
    · rename_i hnone
      exact absurd rfl (hnone _)

theorem exists_classItem_eq_cons (r : CharRange) :
    ∃ x xs, r.classItem = x :: xs ∧ x ∉ ['[', ']', '^', '-', '&', '~'] := by
  obtain ⟨x, xs, heq, hx⟩ := exists_classChar_eq_cons r.first
  exact ⟨x, _, by rw [CharRange.classItem, heq, List.cons_append], hx⟩

/-- Behind a range there is another one or the end of the class, and no dash. -/
theorem head?_flatMap_classItem_ne (rs : List CharRange) (rest : List Char) :
    (rs.flatMap CharRange.classItem ++ ']' :: rest).head? ≠ some '-' := by
  cases rs with
  | nil => simp
  | cons r rs =>
    obtain ⟨x, xs, heq, hx⟩ := exists_classItem_eq_cons r
    simp only [List.mem_cons, List.not_mem_nil, or_false, not_or] at hx
    simp [heq, hx]

/-- **Ranges read back** up to the bracket that closes the class. -/
theorem readItems?_flatMap (rs : List CharRange) (rest : List Char) :
    readItems? (rs.flatMap CharRange.classItem ++ ']' :: rest) = some (rs, rest) := by
  induction rs with
  | nil => rw [List.flatMap_nil, List.nil_append, readItems?]
  | cons r rs ih =>
    obtain ⟨x, xs, heq, hx⟩ := exists_classItem_eq_cons r
    simp only [List.mem_cons, List.not_mem_nil, or_false, not_or] at hx
    have hread := readItem?_classItem r (head?_flatMap_classItem_ne rs rest)
    rw [List.flatMap_cons, List.append_assoc]
    rw [heq, List.cons_append] at hread ⊢
    rw [readItems?, hread]
    · simp only [ih, Option.map_some]
    all_goals simp [hx]

/-- Where nothing else is meant, what is behind the opening bracket is read at once. -/
theorem readClass?_cons {x : Char} (hx : x ∉ ['[', ']', '^', '-', '&', '~']) (cs : List Char) :
    readClass? ('[' :: x :: cs) = readItems? (x :: cs) := by
  simp only [List.mem_cons, List.not_mem_nil, or_false, not_or] at hx
  have hdrop : (x :: cs).dropWhile (· = '-') = x :: cs := List.dropWhile_cons_of_neg (by simp [hx])
  have htake : (x :: cs).takeWhile (· = '-') = [] := List.takeWhile_cons_of_neg (by simp [hx])
  rw [readClass?, hdrop, htake]
  · exact Option.map_id'
  all_goals simp [hx]

/-- **The text of a set reads back**: a class that is read to its end, with the ranges of the set in their order. -/
theorem readClass?_classText {s : CharSet} (hs : s.ranges ≠ []) :
    readClass? s.classText.toList = some (s.ranges, []) := by
  obtain ⟨r, rs, hranges⟩ := List.exists_cons_of_ne_nil hs
  obtain ⟨x, xs, heq, hx⟩ := exists_classItem_eq_cons r
  have hread := readItems?_flatMap (r :: rs) []
  rw [List.flatMap_cons, heq, List.cons_append, List.cons_append] at hread
  rw [classText, if_neg hs, String.toList_ofList, hranges, List.flatMap_cons, heq, List.cons_append, List.cons_append,
    List.cons_append, readClass?_cons hx, hread]

/-- A range from the dash on, another one up to the circumflex, signs that may be operators, a line feed and a letter
beyond the ASCII alphabet. -/
theorem readClass?_classText_signs :
    (ofSpec "^[--]&&~~\né").ranges ≠ [] ∧
      (ofSpec "^[--]&&~~\né").classText = "[\\x{A}\\&\\--\\[\\]-\\^\\~\\x{E9}]" ∧
      readClass? (ofSpec "^[--]&&~~\né").classText.toList = some ((ofSpec "^[--]&&~~\né").ranges, []) := by
  have hranges : (ofSpec "^[--]&&~~\né").ranges ≠ [] := by
    have hlength : (ofSpec "^[--]&&~~\né").ranges.length = 6 := by cbv
    intro hnil
    rw [hnil] at hlength
    cases hlength
  exact ⟨hranges, by cbv, readClass?_classText hranges⟩

end CharSet

end Fluent
