import Fluent.Proofs.Context
import Fluent.Proofs.Escapes

/-!
# Reading a listing of tokens

A listing of tokens says all about them. Its lines are cut at the line feeds, for a line feed in a text is written as a
letter; a line is cut at its signs, for the name of a kind has none and numbers are digits; and a quoted text is cut
into the escapes of its characters. Which characters have no printed form is of no account for that.

* `append_inj_of_stop`, `flatMap_injective`: where a text is cut in one way only.
* `Text.escapeIn`, `Lexeme.row`: a character in quotes and the line of a token, whatever characters have no printed form.
* `escapeIn_append_inj`: from an escape its character is read.
* `row_injective`: from its line a token is read.
* `listing_injective`: **a listing has a line for each token, and all tokens are read from it**.
-/

namespace Fluent

/-! ## Cutting texts -/

/-- Where two texts are the same they begin with the same run, if each run stops in front of something else. -/
theorem append_inj_of_stop (p : Char → Bool) {xs ys rest rest' : List Char} (hxs : ∀ x ∈ xs, p x = true)
    (hys : ∀ y ∈ ys, p y = true) (hrest : ∀ x ∈ rest.head?, p x = false) (hrest' : ∀ y ∈ rest'.head?, p y = false)
    (h : xs ++ rest = ys ++ rest') : xs = ys ∧ rest = rest' := by
  have hrun {zs rest : List Char} (hzs : ∀ z ∈ zs, p z = true) (hstop : ∀ z ∈ rest.head?, p z = false) :
      (zs ++ rest).takeWhile p = zs := by
    rw [takeWhile_append_of_head hstop, List.takeWhile_eq_self_iff.2 hzs]
  have hsame : xs = ys := by rw [← hrun hxs hrest, h, hrun hys hrest']
  exact ⟨hsame, List.append_cancel_left (hsame ▸ h)⟩

/-- A text is cut in one way only if its first piece is. -/
theorem flatMap_injective {α β : Type} {f : α → List β} (hne : ∀ a, f a ≠ [])
    (hf : ∀ a b s t, f a ++ s = f b ++ t → a = b ∧ s = t) : Function.Injective (List.flatMap f) := by
  intro xs ys h
  induction xs generalizing ys with
  | nil =>
    cases ys with
    | nil => rfl
    | cons y ys => exact absurd (List.append_eq_nil_iff.1 h.symm).1 (hne y)
  | cons x xs ih =>
    cases ys with
    | nil => exact absurd (List.append_eq_nil_iff.1 h).1 (hne x)
    | cons y ys =>
      obtain ⟨rfl, hrest⟩ := hf x y _ _ h
      rw [ih hrest]

/-! ## Escapes -/

namespace Text

/-- A character inside quotes, as `escapeChar` writes it if `hidden` are the characters without a printed form. -/
def escapeIn (hidden escaped : Char → Bool) (c : Char) : List Char :=
  match c with
  | '\x00' => ['\\', '0']
  | '\t' => ['\\', 't']
  | '\n' => ['\\', 'n']
  | '\r' => ['\\', 'r']
  | '\\' => ['\\', '\\']
  | c =>
    if escaped c then ['\\', c]
    else if hidden c then '\\' :: 'u' :: '{' :: (Nat.toDigits 16 c.toNat ++ ['}'])
    else [c]

/-- A character that listings write as a code point. -/
def isHidden (c : Char) : Bool := isUnprintable c || attaches c

theorem toList_escapeChar (escaped : Char → Bool) (c : Char) :
    (escapeChar escaped c).toList = escapeIn isHidden escaped c := by
  unfold escapeIn
  split
  · simp [escapeChar]
  · simp [escapeChar]
  · simp [escapeChar]
  · simp [escapeChar]
  · simp [escapeChar]
  · rw [escapeChar, ← isHidden]
    · split
      · simp
      · split <;> simp [hex]
    all_goals assumption

/-- The character that a letter behind a backslash stands for. -/
def letterMeaning : Char → Char
  | '0' => '\x00'
  | 't' => '\t'
  | 'n' => '\n'
  | 'r' => '\r'
  | x => x

section

variable {hidden escaped : Char → Bool}

/-- How a character is written inside quotes: as it is, as a letter behind a backslash, or as a code point. -/
theorem escapeIn_cases (hescaped : ∀ x ∈ ['0', 't', 'n', 'r', 'u'], escaped x = false) (c : Char) :
    (escapeIn hidden escaped c = [c] ∧ c ≠ '\\' ∧ c ≠ '\n') ∨
      (∃ x, escapeIn hidden escaped c = ['\\', x] ∧ x ≠ 'u' ∧ x ≠ '\n' ∧ letterMeaning x = c) ∨
      ∃ digits, escapeIn hidden escaped c = '\\' :: 'u' :: '{' :: (digits ++ ['}']) ∧
        Denotes digits c.toNat := by
  unfold escapeIn
  split
  · exact .inr (.inl ⟨_, rfl, by decide, by decide, rfl⟩)
  · exact .inr (.inl ⟨_, rfl, by decide, by decide, rfl⟩)
  · exact .inr (.inl ⟨_, rfl, by decide, by decide, rfl⟩)
  · exact .inr (.inl ⟨_, rfl, by decide, by decide, rfl⟩)
  · exact .inr (.inl ⟨_, rfl, by decide, by decide, rfl⟩)
  · rename_i _ _ hbreak _ hslash
    split
    · rename_i hc
      have hletter : ∀ x ∈ ['0', 't', 'n', 'r', 'u'], c ≠ x := by
        rintro x hx rfl
        rw [hescaped c hx] at hc
        cases hc
      simp only [List.forall_mem_cons] at hletter
      obtain ⟨h0, ht, hn, hr, hu, -⟩ := hletter
      refine .inr (.inl ⟨c, rfl, hu, hbreak, ?_⟩)
      unfold letterMeaning
      split <;> simp_all
    · split
      · refine .inr (.inr ⟨_, rfl, ?_⟩)
        have hdigits := denotes_toDigits (f := id) (by decide) c.toNat
        rwa [List.map_id] at hdigits
      · exact .inl ⟨rfl, hslash, hbreak⟩

/-- **From an escape its character is read**, whatever is behind it. -/
theorem escapeIn_append_inj (hescaped : ∀ x ∈ ['0', 't', 'n', 'r', 'u'], escaped x = false) {c d : Char}
    {s t : List Char} (h : escapeIn hidden escaped c ++ s = escapeIn hidden escaped d ++ t) : c = d ∧ s = t := by
  have hbrace : isHexDigit '}' = false := by decide
  rcases @escapeIn_cases hidden escaped hescaped c with ⟨hc, hcslash, -⟩ | ⟨x, hc, hx, -, hmeans⟩ | ⟨ds, hc, hds⟩ <;>
  rcases @escapeIn_cases hidden escaped hescaped d with ⟨hd, hdslash, -⟩ | ⟨y, hd, hy, -, hmeans'⟩ | ⟨es, hd, hes⟩ <;>
  rw [hc, hd] at h <;>
  simp only [List.cons_append, List.nil_append, List.append_assoc, List.cons.injEq] at h
  · exact h
  · exact absurd h.1 hcslash
  · exact absurd h.1 hcslash
  · exact absurd h.1.symm hdslash
  · obtain ⟨-, rfl, rfl⟩ := h
    exact ⟨hmeans.symm.trans hmeans', rfl⟩
  · exact absurd h.2.1 hx
  · exact absurd h.1.symm hdslash
  · exact absurd h.2.1.symm hy
  · -- the digits go up to the brace
    have hdigits := append_inj_of_stop isHexDigit (List.all_eq_true.1 (denotes_iff.1 hds).1)
      (List.all_eq_true.1 (denotes_iff.1 hes).1) (by simp [hbrace]) (by simp [hbrace]) h.2.2.2
    obtain ⟨rfl, hrest⟩ := hdigits
    have hvalue : c.toNat = d.toNat := (denotes_iff.1 hds).2.symm.trans (denotes_iff.1 hes).2
    exact ⟨Char.toNat_inj.1 hvalue, (List.cons.inj hrest).2⟩

theorem newline_notMem_escapeIn (hescaped : ∀ x ∈ ['0', 't', 'n', 'r', 'u'], escaped x = false) (c : Char) :
    '\n' ∉ escapeIn hidden escaped c := by
  have hbreak : isHexDigit '\n' = false := by decide
  rcases @escapeIn_cases hidden escaped hescaped c with ⟨hc, -, hne⟩ | ⟨x, hc, -, hne, -⟩ | ⟨ds, hc, hds⟩
  · simpa [hc] using hne.symm
  · simpa [hc] using hne.symm
  · have hdigits : '\n' ∉ ds := by
      intro hmem
      rw [List.all_eq_true.1 (denotes_iff.1 hds).1 _ hmem] at hbreak
      cases hbreak
    simp [hc, hdigits]

end

/-! ## Quoted texts -/

/-- A text in double quotes, as `quote` writes it. -/
def quoteIn (hidden : Char → Bool) (s : String) : List Char :=
  '"' :: (s.toList.flatMap (escapeIn hidden (· == '"')) ++ ['"'])

/-- A character in single quotes, as `quoteChar` writes it. -/
def quoteCharIn (hidden : Char → Bool) (c : Char) : List Char :=
  '\'' :: (escapeIn hidden (· == '\'') c ++ ['\''])

theorem toList_quote (s : String) : (quote s).toList = quoteIn isHidden s := by
  simp [quote, quoteIn, String.toList_join, List.flatMap_map, toList_escapeChar]

theorem toList_quoteChar (c : Char) : (quoteChar c).toList = quoteCharIn isHidden c := by
  simp [quoteChar, quoteCharIn, toList_escapeChar]

variable {hidden : Char → Bool}

theorem escapeIn_ne_nil (hidden escaped : Char → Bool) (c : Char) : escapeIn hidden escaped c ≠ [] := by
  unfold escapeIn
  grind

theorem quoteIn_injective : Function.Injective (quoteIn hidden) := by
  intro s s' h
  have hbody := List.append_cancel_right (List.cons.inj h).2
  exact String.toList_inj.1
    (flatMap_injective (escapeIn_ne_nil _ _) (fun _ _ _ _ => escapeIn_append_inj (by simp)) hbody)

theorem quoteCharIn_injective : Function.Injective (quoteCharIn hidden) :=
  fun _ _ h => (escapeIn_append_inj (by simp) (List.cons.inj h).2).1

theorem newline_notMem_quoteIn (s : String) : '\n' ∉ quoteIn hidden s := by
  simp [quoteIn, newline_notMem_escapeIn]

theorem newline_notMem_quoteCharIn (c : Char) : '\n' ∉ quoteCharIn hidden c := by
  simp [quoteCharIn, newline_notMem_escapeIn]

end Text

/-! ## Lines -/

section

variable {hidden : Char → Bool}

/-- What a listing shows after the span of a token. -/
def Token.payloadIn (hidden : Char → Bool) : Token → List Char
  | pureText text | identifier text | number text | string text | unterminatedString text =>
    ' ' :: Text.quoteIn hidden text
  | comment level content => ' ' :: (level.sigil.toList ++ ' ' :: Text.quoteIn hidden content)
  | unknown c => ' ' :: Text.quoteCharIn hidden c
  | _ => []

/-- The line of a token in a listing, without its line feed. -/
def Lexeme.row (hidden : Char → Bool) (l : Lexeme) : List Char :=
  l.token.kind.toList ++ '@' :: (Nat.toDigits 10 l.span.start ++ '.' :: '.' ::
    (Nat.toDigits 10 l.span.stop ++ l.token.payloadIn hidden))

/-- A listing, if `hidden` are the characters without a printed form. -/
def Lexeme.rows (hidden : Char → Bool) (ls : List Lexeme) : List Char :=
  (ls.map (row hidden)).flatMap (· ++ ['\n'])

theorem Token.toList_payload (t : Token) : t.payload.toList = t.payloadIn Text.isHidden := by
  cases t <;> simp [payload, payloadIn, Text.toList_quote, Text.toList_quoteChar]

theorem Lexeme.toList_line (l : Lexeme) : l.line.toList = l.row Text.isHidden ++ ['\n'] := by
  simp [line, row, toString, Nat.repr_eq_ofList_toDigits, Token.toList_payload]

theorem Lexeme.toList_listing (ls : List Lexeme) : (listing ls).toList = rows Text.isHidden ls := by
  simp [listing, rows, String.toList_join, List.flatMap_map, toList_line]

/-- A token is known from its kind and its payload. -/
theorem Token.payloadIn_inj {t u : Token} (hkind : t.kind = u.kind)
    (hpayload : t.payloadIn hidden = u.payloadIn hidden) : t = u := by
  cases t <;> cases u <;> simp only [kind, String.reduceEq] at hkind <;> try rfl
  case comment.comment level content level' content' =>
    -- the sigil goes up to the blank
    have hsigil : ∀ level : CommentLevel, ∀ c ∈ level.sigil.toList, (c != ' ') = true := by
      rintro (_ | _ | _) <;> simp [CommentLevel.sigil]
    have hwords := append_inj_of_stop (· != ' ') (hsigil level) (hsigil level') (by simp) (by simp)
      (List.cons.inj hpayload).2
    obtain ⟨hlevel, hcontent⟩ := hwords
    have hsame : level = level' := by
      revert hlevel
      cases level <;> cases level' <;> simp [CommentLevel.sigil, CommentLevel.hashes]
    rw [hsame, Text.quoteIn_injective (List.cons.inj hcontent).2]
  case unknown.unknown c d =>
    rw [Text.quoteCharIn_injective (List.cons.inj hpayload).2]
  all_goals rw [Text.quoteIn_injective (List.cons.inj hpayload).2]

theorem Lexeme.newline_notMem_row (l : Lexeme) : '\n' ∉ l.row hidden := by
  have hkind : '\n' ∉ l.token.kind.toList := by
    cases l.token <;> simp [Token.kind]
  have hpayload : '\n' ∉ l.token.payloadIn hidden := by
    cases l.token with
    | comment level content => cases level <;> simp [Token.payloadIn, CommentLevel.sigil, Text.newline_notMem_quoteIn]
    | _ => simp [Token.payloadIn, Text.newline_notMem_quoteIn, Text.newline_notMem_quoteCharIn]
  simp [row, hkind, hpayload, newline_notMem_toDigits]

/-- A number in front of something that is no digit is read from its digits. -/
theorem toDigits_append_inj {m n : Nat} {s t : List Char} (hs : ∀ c ∈ s.head?, c.isDigit = false)
    (ht : ∀ c ∈ t.head?, c.isDigit = false) (h : Nat.toDigits 10 m ++ s = Nat.toDigits 10 n ++ t) : m = n ∧ s = t := by
  have hdigits : ∀ n, ∀ c ∈ Nat.toDigits 10 n, c.isDigit = true :=
    fun _ _ hc => Nat.isDigit_of_mem_toDigits (by omega) le_rfl hc
  obtain ⟨hnumber, hrest⟩ := append_inj_of_stop Char.isDigit (hdigits m) (hdigits n) hs ht h
  have hvalue := congrArg (Nat.ofDigitChars 10 · 0) hnumber
  simp only [Nat.ofDigitChars_ten_toDigits] at hvalue
  exact ⟨hvalue, hrest⟩

/-- **From its line a token is read**, with its span. -/
theorem Lexeme.row_injective : Function.Injective (row hidden) := by
  rintro ⟨t, start, stop⟩ ⟨u, start', stop'⟩ h
  have hkind : ∀ t : Token, ∀ c ∈ t.kind.toList, (c != '@') = true := by
    intro t
    cases t <;> simp [Token.kind]
  have hpayload : ∀ t : Token, ∀ c ∈ (t.payloadIn hidden).head?, c.isDigit = false := by
    intro t
    cases t <;> simp [Token.payloadIn, Char.isDigit]
  have hdot : ('.').isDigit = false := by decide
  have hcut := append_inj_of_stop (· != '@') (hkind t) (hkind u) (by simp) (by simp) h
  obtain ⟨hname, hspan⟩ := hcut
  obtain ⟨rfl, hdots⟩ := toDigits_append_inj (by simp [hdot]) (by simp [hdot]) (List.cons.inj hspan).2
  obtain ⟨rfl, htext⟩ := toDigits_append_inj (hpayload t) (hpayload u) (List.cons.inj (List.cons.inj hdots).2).2
  rw [Token.payloadIn_inj (String.toList_inj.1 hname) htext]

/-- A listing is cut into the lines of its tokens. -/
theorem Lexeme.splitOn_rows (ls : List Lexeme) : (rows hidden ls).splitOn '\n' = ls.map (row hidden) ++ [[]] := by
  refine splitOn_flatMap fun l hl => ?_
  obtain ⟨m, -, rfl⟩ := List.mem_map.1 hl
  exact m.newline_notMem_row

theorem Lexeme.rows_injective : Function.Injective (rows hidden) := by
  intro ls ms h
  have hrows := congrArg (List.splitOn '\n') h
  rw [splitOn_rows, splitOn_rows] at hrows
  exact row_injective.list_map (List.append_cancel_right hrows)

end

/-- **From a listing all tokens are read**, kinds, spans, payloads and the levels of comments, and it has one line for
each token. So it is whatever characters are written as code points because they have no printed form. -/
theorem listing_injective :
    Function.Injective Lexeme.listing ∧
      (∀ ls, (Lexeme.listing ls).toList.splitOn '\n' = ls.map (Lexeme.row Text.isHidden) ++ [[]]) ∧
      ∀ hidden : Char → Bool, Function.Injective (Lexeme.rows hidden) ∧
        ∀ ls, (Lexeme.rows hidden ls).splitOn '\n' = ls.map (Lexeme.row hidden) ++ [[]] := by
  refine ⟨fun ls ms h => ?_, fun ls => ?_, fun hidden => ⟨Lexeme.rows_injective, Lexeme.splitOn_rows⟩⟩
  · have hrows := congrArg String.toList h
    rw [Lexeme.toList_listing, Lexeme.toList_listing] at hrows
    exact Lexeme.rows_injective hrows
  · rw [Lexeme.toList_listing, Lexeme.splitOn_rows]

end Fluent
