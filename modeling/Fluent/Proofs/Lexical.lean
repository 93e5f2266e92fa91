import Fluent.Proofs.Spelling

/-!
# Tokens by their letters

A name, a number or a string that was read once is read again wherever its text stands, as long as nothing behind it
goes on with it.

* `Token.Lexical`: the letters that a token can have.
* `lexical_scan`: a scanned token has such letters.
* `scan_name`, `scan_number`, `scan_string`: what has such letters is scanned.
-/

namespace Fluent

/-- A letter, and then letters, digits, underscores and dashes. -/
def IsName (cs : List Char) : Prop :=
  ∃ x xs, cs = x :: xs ∧ isIdentifierStart x = true ∧ ∀ y ∈ xs, isIdentifierChar y = true

/-- Digits, and a dot with further digits if there are any, behind a dash or not. -/
def IsNumber (cs : List Char) : Prop :=
  ∃ x xs, x.isDigit = true ∧ digits (x :: xs) = x :: xs ∧ (cs = x :: xs ∨ cs = '-' :: x :: xs)

/-- The inside of a string literal: the next quote ends it. So a quote within stands behind a backslash, and no line
ends in it. -/
def IsStringBody (cs : List Char) : Prop := ∀ rest, stringBody (cs ++ '"' :: rest) = (cs, '"' :: rest)

/-- Text of a pattern, without braces. -/
def IsText (cs : List Char) : Prop := ∀ x ∈ cs, x ≠ '{' ∧ x ≠ '}'

/-- The letters that a token can have. For a marker and for punctuation this says nothing, since the kind of the token
tells them. -/
def Token.Lexical : Token → Prop
  | identifier name => IsName name.toList
  | number raw => IsNumber raw.toList
  | string raw => IsStringBody raw.toList
  | pureText text => text.toList ≠ [] ∧ IsText text.toList
  | _ => True

theorem isName_of_identifier {x : Char} (xs : List Char) (hx : isIdentifierStart x = true) :
    IsName (x :: xs.takeWhile isIdentifierChar) :=
  ⟨x, _, rfl, hx, fun _ hy => List.mem_takeWhile_imp hy⟩

theorem Line.isName_of_assignment {cs : List Char} {a : Assignment} (h : assignment? cs = some a) :
    IsName a.name := by
  obtain ⟨x, xs, -, hstart, hname, -⟩ := assignment?_eq_cons h
  rw [hname]
  exact isName_of_identifier xs hstart

/-! ## Numbers -/

/-- What could go on with a number. -/
def extendsNumber (x : Char) : Bool := x.isDigit || x == '.'

theorem takeWhile_append_of_head {p : Char → Bool} {xs rest : List Char} (h : ∀ y ∈ rest.head?, p y = false) :
    (xs ++ rest).takeWhile p = xs.takeWhile p := by
  have hrest : rest.takeWhile p = [] := by
    cases rest with
    | nil => rfl
    | cons y ys => rw [List.takeWhile_cons, if_neg (by simp [h y rfl])]
  rw [List.takeWhile_append]
  split
  · rename_i hlength
    rw [hrest, List.append_nil]
    exact ((List.takeWhile_prefix p).eq_of_length hlength).symm
  · rfl

theorem dropWhile_append_of_head {p : Char → Bool} {xs rest : List Char} (h : ∀ y ∈ rest.head?, p y = false) :
    (xs ++ rest).dropWhile p = xs.dropWhile p ++ rest := by
  have hsplit := List.takeWhile_append_dropWhile (p := p) (l := xs ++ rest)
  rw [takeWhile_append_of_head h] at hsplit
  refine List.append_cancel_left (?_ : xs.takeWhile p ++ _ = xs.takeWhile p ++ _)
  rw [hsplit, ← List.append_assoc, List.takeWhile_append_dropWhile]

/-- Digits are read again in front of what does not go on with them. -/
theorem digits_append {xs rest : List Char} (h : ∀ y ∈ rest.head?, extendsNumber y = false)
    (hxs : digits xs = xs) : digits (xs ++ rest) = xs := by
  have hdigit : ∀ y ∈ rest.head?, y.isDigit = false := by
    intro y hy
    have hextends := h y hy
    simp only [extendsNumber, Bool.or_eq_false_iff] at hextends
    exact hextends.1
  simp only [digits, takeWhile_append_of_head hdigit, dropWhile_append_of_head hdigit] at hxs ⊢
  cases hafter : xs.dropWhile Char.isDigit with
  | nil =>
    simp only [hafter] at hxs
    rw [List.nil_append]
    split
    · exact absurd (h '.' rfl) (by decide)
    · exact hxs
  | cons y ys =>
    simp only [hafter] at hxs
    rw [List.cons_append]
    split at hxs
    · rename_i fraction hcons
      obtain ⟨rfl, rfl⟩ := List.cons.inj hcons
      simp only [takeWhile_append_of_head hdigit]
      exact hxs
    · -- without a dot behind them the digits would be all there is
      rename_i hdot
      have hsplit := List.takeWhile_append_dropWhile (p := Char.isDigit) (l := xs)
      rw [hxs, hafter] at hsplit
      simp at hsplit

theorem takeWhile_takeWhile_self (p : Char → Bool) (xs : List Char) :
    (xs.takeWhile p).takeWhile p = xs.takeWhile p :=
  List.takeWhile_eq_self_iff.2 fun _ hy => List.mem_takeWhile_imp hy

/-- The digits that a text begins with are the digits of their own. -/
theorem digits_digits (cs : List Char) : digits (digits cs) = digits cs := by
  have hall : ∀ xs : List Char, (xs.takeWhile Char.isDigit).dropWhile Char.isDigit = [] :=
    fun xs => List.dropWhile_eq_nil_iff.2 fun _ hy => List.mem_takeWhile_imp hy
  have hwhole : ∀ xs : List Char, digits (xs.takeWhile Char.isDigit) = xs.takeWhile Char.isDigit := by
    intro xs
    simp only [digits, hall, takeWhile_takeWhile_self]
  cases hdrop : cs.dropWhile Char.isDigit with
  | nil =>
    have hcs : digits cs = cs.takeWhile Char.isDigit := by simp only [digits, hdrop]
    rw [hcs, hwhole]
  | cons c rest =>
    by_cases hc : c = '.'
    · subst hc
      cases hfraction : rest.takeWhile Char.isDigit with
      | nil =>
        have hcs : digits cs = cs.takeWhile Char.isDigit := by simp only [digits, hdrop, hfraction]
        rw [hcs, hwhole]
      | cons d ds =>
        have hcs : digits cs = cs.takeWhile Char.isDigit ++ '.' :: d :: ds := by
          simp only [digits, hdrop, hfraction]
        have hdot : ∀ y ∈ ('.' :: d :: ds).head?, y.isDigit = false := by
          intro y hy
          obtain rfl := Option.some.inj hy
          rfl
        have hagain := takeWhile_takeWhile_self Char.isDigit rest
        rw [hfraction] at hagain
        rw [hcs]
        simp only [digits, takeWhile_append_of_head hdot, dropWhile_append_of_head hdot, takeWhile_takeWhile_self,
          hall, List.nil_append, hagain]
    · have hcs : digits cs = cs.takeWhile Char.isDigit := by simp [digits, hdrop, hc]
      rw [hcs, hwhole]

/-! ## Strings -/

/-- What a quote ended is ended by any quote. -/
theorem isStringBody_of_stringBody {cs rest : List Char} (h : (stringBody cs).2 = '"' :: rest) :
    IsStringBody (stringBody cs).1 := by
  intro rest'
  fun_induction stringBody cs with
  | case1 => cases h
  | case2 cs => rfl
  | case3 => simp at h
  | case4 => simp at h
  | case5 => simp at h
  | case6 c cs hc body rest hbody ih =>
    rw [hbody] at ih
    have hnext := ih h
    simp only [List.cons_append, stringBody, if_neg hc, hnext]
  | case7 c cs hquote hbreak hlone hslash body rest hbody ih =>
    rw [hbody] at ih
    have hnext := ih h
    have hplain : c ≠ '\\' := by
      rintro rfl
      cases cs with
      | nil => exact hlone rfl rfl
      | cons d ds => exact hslash d ds rfl rfl
    rw [List.cons_append, stringBody]
    · simp only [hnext]
    · exact hquote
    · exact hbreak
    · exact fun hc => absurd hc hplain
    · exact fun _ _ hc => absurd hc hplain

/-! ## Scanning -/

/-- **A scanned token** has letters that it can have. -/
theorem lexical_scan (c : Char) (cs : List Char) : (Token.scan c cs).1.Lexical := by
  have hscans := Token.scans c cs
  generalize (Token.scan c cs).1 = t, (Token.scan c cs).2 = more at hscans ⊢
  cases hscans with
  | name hc => simpa [Token.Lexical] using isName_of_identifier cs hc
  | number _ hc hds =>
    simp only [Token.Lexical, String.toList_ofList]
    exact ⟨c, more, hc, by rw [← hds, digits_digits], .inl rfl⟩
  | string _ hbody =>
    have hstring := isStringBody_of_stringBody (congrArg Prod.snd hbody)
    rw [hbody] at hstring
    simpa [Token.Lexical] using hstring
  | @negative d ds _ hd hds =>
    simp only [Token.Lexical, String.toList_ofList]
    exact ⟨d, ds, hd, by rw [← hds, digits_digits], .inr rfl⟩
  | sign =>
    unfold Token.ofChar
    split <;> trivial
  | _ => trivial

/-- A name is scanned in front of what does not go on with it. -/
theorem scan_name {x : Char} {xs rest : List Char} (hname : IsName (x :: xs))
    (hrest : ∀ y ∈ rest.head?, isIdentifierChar y = false) :
    Token.scan x (xs ++ rest) = (.identifier (String.ofList (x :: xs)), xs) := by
  obtain ⟨y, ys, hcons, hx, hxs⟩ := hname
  obtain ⟨rfl, rfl⟩ := List.cons.inj hcons
  have hall : (xs ++ rest).takeWhile isIdentifierChar = xs := by
    rw [takeWhile_append_of_head hrest, List.takeWhile_eq_self_iff.2 hxs]
  simp only [Token.scan, if_pos hx, hall]

theorem isIdentifierStart_of_isDigit {x : Char} (hx : x.isDigit = true) : isIdentifierStart x = false := by
  simp only [isIdentifierStart, Char.isAlpha, Char.isUpper, Char.isLower, Char.isDigit, Bool.and_eq_true,
    decide_eq_true_eq, Bool.or_eq_false_iff, Bool.and_eq_false_iff, decide_eq_false_iff_not, ge_iff_le,
    UInt32.le_iff_toNat_le, Char.reduceVal, UInt32.reduceToNat] at hx ⊢
  omega

/-- A number is scanned in front of what does not go on with it. -/
theorem scan_number {x : Char} {xs rest : List Char} (hnumber : IsNumber (x :: xs))
    (hrest : ∀ y ∈ rest.head?, extendsNumber y = false) :
    Token.scan x (xs ++ rest) = (.number (String.ofList (x :: xs)), xs) := by
  obtain ⟨d, ds, hd, hdigits, hcons⟩ := hnumber
  have hread := digits_append hrest hdigits
  rw [List.cons_append] at hread
  have hletter := isIdentifierStart_of_isDigit hd
  rcases hcons with hcons | hcons
  · obtain ⟨rfl, rfl⟩ := List.cons.inj hcons
    simp [Token.scan, hletter, hd, hread]
  · obtain ⟨rfl, rfl⟩ := List.cons.inj hcons
    have hdash : d ≠ '>' := by
      rintro rfl
      revert hd
      decide
    have hsign : isIdentifierStart '-' = false := rfl
    simp [Token.scan, hsign, hd, hread]

/-- A string is scanned up to its closing quote. -/
theorem scan_string {cs : List Char} (rest : List Char) (hstring : IsStringBody cs) :
    Token.scan '"' (cs ++ '"' :: rest) = (.string (String.ofList cs), cs ++ ['"']) := by
  have hletter : isIdentifierStart '"' = false := rfl
  have hdigit : Char.isDigit '"' = false := rfl
  simp [Token.scan, hletter, hdigit, hstring rest]

end Fluent
