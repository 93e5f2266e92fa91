import Fluent.Proofs.Stretch
import Fluent.Token.Scan

/-!
# Spelling

What the source text of a token looks like.

* `Token.SpelledBy`: the text of a token.
* `Token.scan_spelled`: a scanned token is spelled by the characters that it takes.
-/

namespace Fluent

/-- A text that spells the token. Markers have none; the text of a run has its line breaks and its
indentation in front of it; a string without its closing quote loses the carriage returns at its end. -/
def Token.SpelledBy : Token → List Char → Prop
  | patternStart, text | patternEnd, text | patternSkip, text | closeComment, text
  | endPositional, text => text = []
  | pureText value, text =>
    value ≠ "" ∧ ∃ breaks indent,
      value.toList = List.replicate breaks '\n' ++ List.replicate indent ' ' ++ text
  | blankLines, text => ∀ c ∈ text, isLayout c = true
  | unfinishedLine, _ => True
  | comment level content, text =>
    text = level.sigil.toList ∧ content = "" ∨ text = level.sigil.toList ++ ' ' :: content.toList
  | identifier raw, text | number raw, text => text ≠ [] ∧ text = raw.toList
  | string raw, text => text = '"' :: raw.toList ++ ['"']
  | unterminatedString raw, text =>
    raw.toList.getLast? ≠ some '\r' ∧
      ∃ returns, text = '"' :: raw.toList ++ List.replicate returns '\r'
  | minus, text => text = ['-']
  | equals, text => text = ['=']
  | dot, text => text = ['.']
  | arrow, text => text = ['-', '>']
  | star, text => text = ['*']
  | dollar, text => text = ['$']
  | comma, text => text = [',']
  | colon, text => text = [':']
  | openBrace, text => text = ['{']
  | closeBrace, text => text = ['}']
  | openBracket, text => text = ['[']
  | closeBracket, text => text = [']']
  | openParen, text => text = ['(']
  | closeParen, text => text = [')']
  | unknown c, text => text = [c]

/-- A marker takes no text. -/
theorem Token.SpelledBy.eq_nil {t : Token} {text : List Char} (h : t.SpelledBy text)
    (ht : t.isMarker = true) : text = [] := by
  cases t <;> first | exact h | simp [isMarker] at ht

/-- A token that begins an entry or a comment has text. -/
theorem Token.SpelledBy.ne_nil {k : Token} {text : List Char} (h : k.SpelledBy text)
    (hk : k.opensEntry = true ∨ ∃ level content, k = .comment level content) : text ≠ [] := by
  rcases hk with hopens | ⟨level, content, rfl⟩
  · cases k <;> first | (simp [Token.opensEntry] at hopens; done) | skip
    · exact h.1
    · rintro rfl
      cases h
  · have hsigil : level.sigil.toList ≠ [] := by
      cases level <;> decide
    rintro rfl
    rcases h with ⟨hnil, -⟩ | hnil
    · exact hsigil hnil.symm
    · simp at hnil

theorem identifierChar_ne_newline {c : Char} (h : isIdentifierChar c = true) : c ≠ '\n' := by
  rintro rfl
  revert h
  decide

theorem identifierStart_ne_newline {c : Char} (h : isIdentifierStart c = true) : c ≠ '\n' := by
  rintro rfl
  revert h
  decide

theorem isIdentifierChar_of_isIdentifierStart {c : Char} (h : isIdentifierStart c = true) :
    isIdentifierChar c = true := by
  have halpha : c.isAlpha = true := h
  simp [isIdentifierChar, Char.isAlphanum, halpha]

theorem digit_ne_newline {c : Char} (h : c.isDigit = true) : c ≠ '\n' := by
  rintro rfl
  revert h
  decide

/-- The inside of a string literal stays on its line. -/
theorem stringBody_spec (cs : List Char) :
    (stringBody cs).1 ++ (stringBody cs).2 = cs ∧ '\n' ∉ (stringBody cs).1 := by
  fun_induction stringBody cs with
  | case1 => simp
  | case2 => simp
  | case3 => simp
  | case4 => simp
  | case5 => simp
  | case6 c cs hc body rest hbody ih =>
    rw [hbody] at ih
    simpa [Ne.symm hc] using ih
  | case7 c cs _ hc _ _ body rest hbody ih =>
    rw [hbody] at ih
    have hbreak : ¬ '\n' = c := fun h => hc h.symm
    simpa [hbreak] using ih

theorem digits_spec (cs : List Char) : ∃ rest, cs = digits cs ++ rest ∧ '\n' ∉ digits cs := by
  have hwhole := List.takeWhile_append_dropWhile (p := Char.isDigit) (l := cs)
  have hdigit : ∀ xs : List Char, '\n' ∉ xs.takeWhile Char.isDigit :=
    fun _ h => digit_ne_newline (List.mem_takeWhile_imp h) rfl
  simp only [digits]
  split
  · rename_i rest hrest
    rw [hrest] at hwhole
    split
    · exact ⟨_, hwhole.symm, hdigit cs⟩
    · rename_i fraction hfraction
      refine ⟨rest.dropWhile Char.isDigit, ?_, ?_⟩
      · conv_lhs => rw [← hwhole, ← List.takeWhile_append_dropWhile (p := Char.isDigit) (l := rest)]
        simp
      · simpa using ⟨hdigit cs, hdigit rest⟩
  · exact ⟨_, hwhole.symm, hdigit cs⟩

/-- The digits of a text that begins with one begin with it. -/
theorem digits_cons {c : Char} (cs : List Char) (hc : c.isDigit = true) :
    ∃ ds, digits (c :: cs) = c :: ds := by
  obtain ⟨rest, hrest, -⟩ := digits_spec (c :: cs)
  cases hdigits : digits (c :: cs) with
  | nil =>
    simp only [digits, List.takeWhile_cons, hc, if_true] at hdigits
    repeat' split at hdigits
    all_goals simp at hdigits
  | cons d ds =>
    rw [hdigits, List.cons_append] at hrest
    exact ⟨ds, by rw [(List.cons.inj hrest).1]⟩

/-- What is lost at the end of a text are carriage returns. -/
theorem trimReturns_spec (cs : List Char) :
    (trimReturns cs).getLast? ≠ some '\r' ∧
      ∃ returns, cs = trimReturns cs ++ List.replicate returns '\r' := by
  have hsplit := List.takeWhile_append_dropWhile (p := (· == '\r')) (l := cs.reverse)
  have hspaces := takeWhile_beq '\r' cs.reverse
  refine ⟨?_, (cs.reverse.takeWhile (· == '\r')).length, ?_⟩
  · rw [trimReturns, List.getLast?_reverse]
    intro hlast
    have := List.head?_dropWhile_not (· == '\r') cs.reverse
    rw [hlast] at this
    simp at this
  · rw [trimReturns, ← List.reverse_replicate, ← hspaces, ← List.reverse_append, hsplit,
      List.reverse_reverse]

namespace Token

theorem ofChar_spelled (c : Char) : (ofChar c).SpelledBy [c] := by
  unfold ofChar
  split <;> rfl

/-- **What a scan can give**: a token, and the characters of it behind the first one. -/
inductive Scans (c : Char) (cs : List Char) : Token → List Char → Prop
  | name : isIdentifierStart c = true →
    Scans c cs (.identifier (String.ofList (c :: cs.takeWhile isIdentifierChar))) (cs.takeWhile isIdentifierChar)
  | number {ds : List Char} : isIdentifierStart c = false → c.isDigit = true → digits (c :: cs) = c :: ds →
    Scans c cs (.number (String.ofList (c :: ds))) ds
  | string {body rest : List Char} : c = '"' → stringBody cs = (body, '"' :: rest) →
    Scans c cs (.string (String.ofList body)) (body ++ ['"'])
  | unterminated {body rest : List Char} : c = '"' → stringBody cs = (body, rest) → rest.head? ≠ some '"' →
    Scans c cs (.unterminatedString (String.ofList (trimReturns body))) body
  | arrow {rest : List Char} : c = '-' → cs = '>' :: rest → Scans c cs .arrow ['>']
  | negative {d : Char} {ds : List Char} : c = '-' → d.isDigit = true → digits cs = d :: ds →
    Scans c cs (.number (String.ofList ('-' :: d :: ds))) (d :: ds)
  /-- A character by itself. -/
  | sign : isIdentifierStart c = false → c.isDigit = false → c ≠ '"' →
    (c = '-' → ∀ d ∈ cs.head?, d ≠ '>' ∧ d.isDigit = false) → Scans c cs (.ofChar c) []

theorem scans (c : Char) (cs : List Char) : Scans c cs (scan c cs).1 (scan c cs).2 := by
  unfold scan
  split
  · rename_i hname
    exact .name hname
  rename_i hname
  rw [Bool.not_eq_true] at hname
  split
  · rename_i hdigit
    obtain ⟨ds, hds⟩ := digits_cons cs hdigit
    simp only [hds]
    exact .number hname hdigit hds
  rename_i hdigit
  rw [Bool.not_eq_true] at hdigit
  split
  · rename_i hquote
    split
    · rename_i body rest hbody
      exact .string hquote hbody
    · rename_i body rest hopen hbody
      refine .unterminated hquote hbody fun hhead => ?_
      obtain ⟨after, rfl⟩ := List.head?_eq_some_iff.1 hhead
      exact hopen _ rfl
  rename_i hquote
  split
  · rename_i hminus
    subst hminus
    split
    · exact .arrow rfl rfl
    · rename_i d ds hbreak
      split
      · rename_i hd
        obtain ⟨es, hes⟩ := digits_cons ds hd
        simp only [hes]
        exact .negative rfl hd hes
      · rename_i hd
        refine .sign rfl rfl (by decide) fun _ e he => ?_
        obtain rfl := Option.some.inj he
        exact ⟨fun heq => hbreak (heq ▸ rfl), Bool.not_eq_true _ ▸ hd⟩
    · exact .sign rfl rfl (by decide) nofun
  · rename_i hminus
    exact .sign hname hdigit hquote fun heq => absurd heq hminus

/-- A name is scanned where a letter stands, and reaches as far as it can. -/
theorem scan_of_isIdentifierStart {c : Char} (cs : List Char) (hc : isIdentifierStart c = true) :
    scan c cs = (.identifier (String.ofList (c :: cs.takeWhile isIdentifierChar)), cs.takeWhile isIdentifierChar) := by
  simp only [scan, if_pos hc]

/-- A scanned token is spelled by the characters that it takes, which are on one line. -/
theorem scan_spelled {c : Char} (cs : List Char) (hc : c ≠ '\n') :
    (∃ rest, cs = (scan c cs).2 ++ rest) ∧ (scan c cs).1.SpelledBy (c :: (scan c cs).2) ∧
      '\n' ∉ c :: (scan c cs).2 := by
  have hbreak : ¬ '\n' = c := fun h => hc h.symm
  have hscans := scans c cs
  generalize (scan c cs).1 = t, (scan c cs).2 = more at hscans ⊢
  cases hscans with
  | name =>
    refine ⟨⟨_, List.takeWhile_append_dropWhile.symm⟩, by simp [SpelledBy], ?_⟩
    rw [List.mem_cons, not_or]
    exact ⟨hbreak, fun h => identifierChar_ne_newline (List.mem_takeWhile_imp h) rfl⟩
  | number _ _ hdigits =>
    obtain ⟨rest, hrest, hmem⟩ := digits_spec (c :: cs)
    rw [hdigits] at hrest hmem
    exact ⟨⟨rest, (List.cons.inj hrest).2⟩, by simp [SpelledBy], hmem⟩
  | string hquote hbody =>
    obtain ⟨hsplit, hmem⟩ := stringBody_spec cs
    rw [hbody] at hsplit hmem
    refine ⟨⟨_, by simpa using hsplit.symm⟩, by simp [SpelledBy, hquote], ?_⟩
    simpa [hbreak] using hmem
  | @unterminated _ rest hquote hbody =>
    obtain ⟨hsplit, hmem⟩ := stringBody_spec cs
    rw [hbody] at hsplit hmem
    obtain ⟨hlast, returns, hreturns⟩ := trimReturns_spec more
    refine ⟨⟨rest, hsplit.symm⟩, ⟨by simpa using hlast, returns, ?_⟩, ?_⟩
    · rw [String.toList_ofList, hquote, List.cons_append, ← hreturns]
    · simpa [hbreak] using hmem
  | arrow hminus hcs => exact ⟨⟨_, hcs⟩, by rw [hminus]; rfl, by simp [hbreak]⟩
  | negative hminus _ hdigits =>
    obtain ⟨rest, hrest, hmem⟩ := digits_spec cs
    rw [hdigits] at hrest hmem
    refine ⟨⟨rest, hrest⟩, by simp [SpelledBy, hminus], ?_⟩
    simpa [hbreak] using hmem
  | sign => exact ⟨⟨cs, rfl⟩, ofChar_spelled c, by simp [hbreak]⟩

/-- What is scanned stands for source text. -/
theorem isMarker_scan {c : Char} (cs : List Char) (hc : c ≠ '\n') : (scan c cs).1.isMarker = false := by
  by_contra hmarker
  rw [Bool.not_eq_false] at hmarker
  have hnil := (scan_spelled cs hc).2.1.eq_nil hmarker
  exact absurd hnil (List.cons_ne_nil _ _)

end Token

end Fluent
