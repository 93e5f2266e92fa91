import Fluent.Proofs.Stretch
import Fluent.Text.Escape

/-!
# The units of a string literal

The text of a string literal has a meaning exactly if it is made of units: a character other than the backslash, a
backslash in front of a backslash or a quote, a code point in four or six hexadecimal digits. In any other text the
first backslash that begins no unit is reported.

* `IsUnit`, `Units`: a unit with its meaning, and what is made of units.
* `isUnit_of_escapeUnit`, `escapeUnit_of_isUnit`: what is read first is a unit, and a unit is read wherever one stands.
* `unescape_units`: the meaning of a text, or the fault in it.
-/

namespace Fluent.Text

/-! ## Code points -/

/-- A hexadecimal digit, in either case, and what it counts. -/
def IsDigit (d : Char) (n : Nat) : Prop :=
  "0123456789abcdef".toList[n]? = some d ∨ "0123456789ABCDEF".toList[n]? = some d

instance (d : Char) (n : Nat) : Decidable (IsDigit d n) := inferInstanceAs (Decidable (_ ∨ _))

/-- A number in hexadecimal digits, said digit by digit from the front. No digits denote zero. -/
inductive Denotes : List Char → Nat → Prop
  | nil : Denotes [] 0
  | snoc {ds : List Char} {d : Char} {n v : Nat} : Denotes ds n → IsDigit d v → Denotes (ds ++ [d]) (16 * n + v)

/-- The character at a code point; the replacement character where there is none. -/
def IsAt (n : Nat) (c : Char) : Prop := if n.isValidChar then c.toNat = n else c = '\ufffd'

theorem isDigit_iff {d : Char} {n : Nat} : IsDigit d n ↔ isHexDigit d = true ∧ hexDigitValue d = n := by
  constructor
  · intro h
    have hlt : n < 16 := h.elim (fun h => (List.getElem?_eq_some_iff.1 h).1) fun h => (List.getElem?_eq_some_iff.1 h).1
    rcases h with h | h <;> interval_cases n <;> obtain rfl := Option.some.inj h <;> decide
  · rintro ⟨h, rfl⟩
    -- all digits are among the first characters
    have hlt : d.toNat < 103 := by
      simp only [isHexDigit, Char.isDigit, Bool.or_eq_true, Bool.and_eq_true, decide_eq_true_eq, Char.le_def,
        UInt32.le_iff_toNat_le, ge_iff_le, Char.toNat_val, Char.reduceToNat] at h
      omega
    have hall : ∀ k < 103, isHexDigit (Char.ofNat k) = true → IsDigit (Char.ofNat k) (hexDigitValue (Char.ofNat k)) := by
      decide
    have hd := hall d.toNat hlt
    rw [Char.ofNat_toNat] at hd
    exact hd h

theorem hexValue_append (ds : List Char) (d : Char) :
    hexValue (ds ++ [d]) = 16 * hexValue ds + hexDigitValue d := List.foldl_append

theorem denotes_iff {ds : List Char} {n : Nat} : Denotes ds n ↔ ds.all isHexDigit = true ∧ hexValue ds = n := by
  constructor
  · intro h
    induction h with
    | nil => exact ⟨rfl, rfl⟩
    | snoc _ hd ih =>
      obtain ⟨hdigit, rfl⟩ := isDigit_iff.1 hd
      exact ⟨by simp [ih.1, hdigit], by rw [hexValue_append, ih.2]⟩
  · rintro ⟨hall, rfl⟩
    induction ds using List.reverseRecOn with
    | nil => exact .nil
    | append_singleton ds d ih =>
      simp only [List.all_append, List.all_cons, List.all_nil, Bool.and_true, Bool.and_eq_true] at hall
      rw [hexValue_append]
      exact .snoc (ih hall.1) (isDigit_iff.2 ⟨hall.2, rfl⟩)

/-- Digits that are made one by one denote their number, whatever case they are put in. -/
theorem denotes_toDigits {f : Char → Char} (hf : ∀ v < 16, IsDigit (f v.digitChar) v) (n : Nat) :
    Denotes ((Nat.toDigits 16 n).map f) n := by
  induction n using Nat.strong_induction_on with
  | _ n ih =>
    rw [Nat.toDigits_eq_if (by decide)]
    split
    · rename_i hlt
      have hone := Denotes.nil.snoc (hf n hlt)
      rwa [Nat.mul_zero, Nat.zero_add] at hone
    · have hmore := (ih (n / 16) (by omega)).snoc (hf (n % 16) (Nat.mod_lt n (by decide)))
      rw [Nat.div_add_mod] at hmore
      rw [List.map_append]
      exact hmore

theorem isAt_iff {n : Nat} {c : Char} : IsAt n c ↔ charOfCodePoint n = c := by
  unfold IsAt charOfCodePoint
  split
  · rename_i hvalid
    constructor
    · rintro rfl
      exact Char.ofNat_toNat c
    · rintro rfl
      rw [Char.ofNat, dif_pos hvalid]
      rfl
  · exact eq_comm

/-! ## Units -/

/-- A unit and its meaning: a character that is no backslash and means itself, or an escape. A code point has four
digits behind a small `u`, and six behind a capital one. -/
inductive IsUnit : List Char → Char → Prop
  | plain {c : Char} : c ≠ '\\' → IsUnit [c] c
  | backslash : IsUnit ['\\', '\\'] '\\'
  | quote : IsUnit ['\\', '"'] '"'
  | short {ds : List Char} {n : Nat} {c : Char} : ds.length = 4 → Denotes ds n → IsAt n c → IsUnit ('\\' :: 'u' :: ds) c
  | long {ds : List Char} {n : Nat} {c : Char} : ds.length = 6 → Denotes ds n → IsAt n c → IsUnit ('\\' :: 'U' :: ds) c

/-- A text that is made of units, and what these mean one after the other. This is what a string literal means, said
without the function that reads it. -/
inductive Units : List Char → List Char → Prop
  | nil : Units [] []
  | cons {text raw value : List Char} {c : Char} : IsUnit text c → Units raw value → Units (text ++ raw) (c :: value)

/-- A text that goes on with a backslash, and with no unit: where a literal stops having a meaning, and what is reported
of it begins. -/
def BeginsNoUnit (cs : List Char) : Prop := cs.head? = some '\\' ∧ ∀ text c, IsUnit text c → ¬ text <+: cs

/-- What is reported where a text begins with no unit: the backslash and its marker, with all that stands where the digits
of a code point would. -/
def reported : List Char → List Char
  | '\\' :: 'u' :: rest => '\\' :: 'u' :: rest.take 4
  | '\\' :: 'U' :: rest => '\\' :: 'U' :: rest.take 6
  | cs => cs.take 2

theorem reported_prefix (cs : List Char) : reported cs <+: cs := by
  unfold reported
  split
  · exact List.cons_prefix_cons.2 ⟨rfl, List.cons_prefix_cons.2 ⟨rfl, List.take_prefix _ _⟩⟩
  · exact List.cons_prefix_cons.2 ⟨rfl, List.cons_prefix_cons.2 ⟨rfl, List.take_prefix _ _⟩⟩
  · exact List.take_prefix _ _

section

variable {c v marker : Char} {cs ds raw text value : List Char} {n k : Nat}

/-- A code point is read where as many digits stand as it has. -/
theorem codePoint_eq_ok (h : escapeUnit.codePoint marker n cs = .ok (v, k)) :
    ∃ m, (cs.take n).length = n ∧ Denotes (cs.take n) m ∧ IsAt m v ∧ k = n + 1 := by
  unfold escapeUnit.codePoint at h
  simp only at h
  split at h
  · rename_i hdigits
    obtain ⟨rfl, rfl⟩ := Prod.mk.inj (Except.ok.inj h)
    exact ⟨_, hdigits.1, denotes_iff.2 ⟨hdigits.2, rfl⟩, isAt_iff.2 rfl, rfl⟩
  · cases h

theorem codePoint_of_denotes {m : Nat} (hlength : ds.length = n) (hds : Denotes ds m) (hv : IsAt m v) (rest : List Char) :
    escapeUnit.codePoint marker n (ds ++ rest) = .ok (v, n + 1) := by
  obtain ⟨hall, rfl⟩ := denotes_iff.1 hds
  obtain rfl := isAt_iff.1 hv
  unfold escapeUnit.codePoint
  simp only [List.take_left' hlength]
  rw [if_pos ⟨hlength, hall⟩]

/-- What is read is a unit. -/
theorem isUnit_of_escapeUnit (h : escapeUnit c cs = .ok (v, k)) : IsUnit (c :: cs.take k) v := by
  unfold escapeUnit at h
  split at h
  · rename_i hc
    obtain ⟨rfl, rfl⟩ := Prod.mk.inj (Except.ok.inj h)
    exact .plain hc
  · rename_i hc
    obtain rfl : c = '\\' := not_not.1 hc
    split at h
    · cases h
    · obtain ⟨rfl, rfl⟩ := Prod.mk.inj (Except.ok.inj h)
      exact .backslash
    · obtain ⟨rfl, rfl⟩ := Prod.mk.inj (Except.ok.inj h)
      exact .quote
    · obtain ⟨m, hlength, hds, hv, rfl⟩ := codePoint_eq_ok h
      exact .short hlength hds hv
    · obtain ⟨m, hlength, hds, hv, rfl⟩ := codePoint_eq_ok h
      exact .long hlength hds hv
    · cases h

/-- A unit is read, whatever stands behind it. -/
theorem escapeUnit_of_isUnit (h : IsUnit text v) (rest : List Char) :
    ∃ c cs, text = c :: cs ∧ escapeUnit c (cs ++ rest) = .ok (v, cs.length) := by
  cases h with
  | plain hc => exact ⟨v, [], rfl, if_pos hc⟩
  | backslash => exact ⟨_, _, rfl, rfl⟩
  | quote => exact ⟨_, _, rfl, rfl⟩
  | @short ds _ _ hlength hds hv =>
    refine ⟨'\\', 'u' :: ds, rfl, ?_⟩
    rw [List.length_cons, hlength]
    exact codePoint_of_denotes hlength hds hv rest
  | @long ds _ _ hlength hds hv =>
    refine ⟨'\\', 'U' :: ds, rfl, ?_⟩
    rw [List.length_cons, hlength]
    exact codePoint_of_denotes hlength hds hv rest

/-- Where nothing is read, a backslash begins no unit. -/
theorem beginsNoUnit_of_escapeUnit (h : escapeUnit c cs = .error raw) :
    BeginsNoUnit (c :: cs) ∧ raw = reported (c :: cs) := by
  -- a unit that stood here would have been read
  have hnone : ∀ text v, IsUnit text v → ¬ text <+: c :: cs := by
    rintro text v hunit ⟨rest, hrest⟩
    obtain ⟨c', cs', rfl, hread⟩ := escapeUnit_of_isUnit hunit rest
    rw [List.cons_append] at hrest
    obtain ⟨rfl, rfl⟩ := List.cons.inj hrest
    rw [h] at hread
    cases hread
  have hcode : ∀ {marker n rest}, escapeUnit.codePoint marker n rest = .error raw → raw = '\\' :: marker :: rest.take n := by
    intro marker n rest hcode
    unfold escapeUnit.codePoint at hcode
    simp only at hcode
    split at hcode
    · cases hcode
    · exact (Except.error.inj hcode).symm
  unfold escapeUnit at h
  split at h
  · cases h
  · rename_i hc
    obtain rfl : c = '\\' := not_not.1 hc
    refine ⟨⟨rfl, hnone⟩, ?_⟩
    split at h
    · exact (Except.error.inj h).symm
    · cases h
    · cases h
    · exact hcode h
    · exact hcode h
    · rename_i other rest _ _ hu hU
      obtain rfl := Except.error.inj h
      unfold reported
      split
      · rename_i heq
        exact (hu (List.cons.inj (List.cons.inj heq).2).1).elim
      · rename_i heq
        exact (hU (List.cons.inj (List.cons.inj heq).2).1).elim
      · rfl

/-! ## Texts -/

theorem unescape_cons (offset : Nat) (h : escapeUnit c (cs ++ raw) = .ok (v, cs.length)) :
    unescape offset (c :: cs ++ raw) = (unescape (offset + byteCount (c :: cs)) raw).map (v :: ·) := by
  rw [List.cons_append, unescape, h]
  simp only [List.take_left, List.drop_left]

/-- What units are made of is read. -/
theorem unescape_of_units (h : Units text value) (offset : Nat) (rest : List Char) :
    unescape offset (text ++ rest) = (unescape (offset + byteCount text) rest).map (value ++ ·) := by
  induction h generalizing offset with
  | nil =>
    cases hrest : unescape offset rest <;> simp [byteCount, hrest, Except.map]
  | @cons text raw value v hunit _ ih =>
    obtain ⟨c, cs, rfl, hread⟩ := escapeUnit_of_isUnit hunit (raw ++ rest)
    rw [List.append_assoc, unescape_cons offset hread, ih, byteCount_append, Nat.add_assoc]
    cases unescape (offset + (byteCount (c :: cs) + byteCount raw)) rest <;> rfl

/-- A text that begins with no unit has no meaning. -/
theorem unescape_of_beginsNoUnit (h : BeginsNoUnit cs) (offset : Nat) :
    unescape offset cs = .error ⟨⟨offset, offset + byteCount (reported cs)⟩, reported cs⟩ := by
  obtain ⟨rest, rfl⟩ := List.head?_eq_some_iff.1 h.1
  cases hread : escapeUnit '\\' rest with
  | ok r =>
    obtain ⟨v, k⟩ := r
    refine absurd ?_ (h.2 _ v (isUnit_of_escapeUnit hread))
    exact List.cons_prefix_cons.2 ⟨rfl, List.take_prefix k rest⟩
  | error raw =>
    obtain ⟨-, rfl⟩ := beginsNoUnit_of_escapeUnit hread
    rw [unescape, hread]

/-- **Every text is read as far as it is made of units**: to its end, or up to a backslash that begins none. -/
theorem exists_units (cs : List Char) :
    (∃ value, Units cs value) ∨ ∃ front stop value, cs = front ++ stop ∧ Units front value ∧ BeginsNoUnit stop := by
  fun_induction unescape 0 cs with
  | case1 => exact .inl ⟨[], .nil⟩
  | case2 _ c cs raw hread => exact .inr ⟨[], c :: cs, [], rfl, .nil, (beginsNoUnit_of_escapeUnit hread).1⟩
  | case3 _ c cs v k hread ih =>
    have hunit := isUnit_of_escapeUnit hread
    have hsplit : c :: cs = (c :: cs.take k) ++ cs.drop k := by rw [List.cons_append, List.take_append_drop]
    rw [hsplit]
    rcases ih with ⟨value, hvalue⟩ | ⟨front, stop, value, hcs, hfront, hstop⟩
    · exact .inl ⟨_, .cons hunit hvalue⟩
    · exact .inr ⟨_, stop, _, by rw [hcs, List.append_assoc], .cons hunit hfront, hstop⟩

theorem unescape_eq_ok_iff {offset : Nat} : unescape offset cs = .ok value ↔ Units cs value := by
  have hread : ∀ {value}, Units cs value → unescape offset cs = .ok value := by
    intro value hvalue
    have hcs := unescape_of_units hvalue offset []
    rw [List.append_nil, unescape] at hcs
    rw [hcs, Except.map, List.append_nil]
  refine ⟨fun h => ?_, hread⟩
  rcases exists_units cs with ⟨value', hvalue⟩ | ⟨front, stop, value', rfl, hfront, hstop⟩
  · obtain rfl := Except.ok.inj (h.symm.trans (hread hvalue))
    exact hvalue
  · rw [unescape_of_units hfront, unescape_of_beginsNoUnit hstop] at h
    cases h

theorem unescape_eq_error_iff {offset : Nat} {e : BadEscape} :
    unescape offset cs = .error e ↔ ∃ front stop value, cs = front ++ stop ∧ Units front value ∧ BeginsNoUnit stop ∧
      e = ⟨⟨offset + byteCount front, offset + byteCount front + byteCount (reported stop)⟩, reported stop⟩ := by
  have hread : ∀ {front stop value}, Units front value → BeginsNoUnit stop → unescape offset (front ++ stop) =
      .error ⟨⟨offset + byteCount front, offset + byteCount front + byteCount (reported stop)⟩, reported stop⟩ := by
    intro front stop value hfront hstop
    rw [unescape_of_units hfront, unescape_of_beginsNoUnit hstop]
    rfl
  constructor
  · intro h
    rcases exists_units cs with ⟨value, hvalue⟩ | ⟨front, stop, value, rfl, hfront, hstop⟩
    · rw [unescape_eq_ok_iff.2 hvalue] at h
      cases h
    · exact ⟨front, stop, value, rfl, hfront, hstop, Except.error.inj (h.symm.trans (hread hfront hstop))⟩
  · rintro ⟨front, stop, value, rfl, hfront, hstop, rfl⟩
    exact hread hfront hstop

end

/-- **The meaning of a string literal.** Its text has one exactly if it is made of units, and then it is what these mean
one after the other. Otherwise the first backslash that begins no unit is reported, with its place in the source and the
text that stands there. -/
theorem unescape_units (offset : Nat) (raw : String) :
    (∀ value, unescape offset raw.toList = .ok value ↔ Units raw.toList value) ∧
    ∀ e, unescape offset raw.toList = .error e ↔
      ∃ front stop, raw.toList = front ++ stop ∧ (∃ value, Units front value) ∧ BeginsNoUnit stop ∧
        e.raw = reported stop ∧
        e.span = ⟨offset + byteCount front, offset + byteCount (front ++ e.raw)⟩ ∧
        (Source.ofString raw).slice ⟨byteCount front, byteCount (front ++ e.raw)⟩ = String.ofList e.raw := by
  refine ⟨fun _ => unescape_eq_ok_iff, fun e => unescape_eq_error_iff.trans ?_⟩
  constructor
  · rintro ⟨front, stop, value, hraw, hfront, hstop, rfl⟩
    obtain ⟨rest, hrest⟩ := reported_prefix stop
    have hbefore : (Cursor.ofChars raw.toList).Over front ⟨byteCount front, stop⟩ :=
      ⟨hraw, (Nat.zero_add _).symm⟩
    have hover : Cursor.Over ⟨byteCount front, stop⟩ (reported stop) ⟨byteCount (front ++ reported stop), rest⟩ :=
      ⟨hrest.symm, byteCount_append front (reported stop)⟩
    refine ⟨front, stop, hraw, ⟨value, hfront⟩, hstop, rfl, ?_, hbefore.slice hover⟩
    rw [byteCount_append, Nat.add_assoc]
  · rintro ⟨front, stop, hraw, ⟨value, hfront⟩, hstop, htext, hspan, -⟩
    refine ⟨front, stop, value, hraw, hfront, hstop, ?_⟩
    obtain ⟨span, text⟩ := e
    simp only at htext hspan
    rw [hspan, htext, byteCount_append, Nat.add_assoc]

/-- A quote behind a backslash, a code point that is no character, and what is left of one. -/
example : unescape 3 "\\\"\\uD800\\u41".toList = .error ⟨⟨11, 15⟩, "\\u41".toList⟩ := by decide +kernel

end Fluent.Text
