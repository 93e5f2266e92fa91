import Fluent.Proofs.Stretch

/-!
# Checked access

A text is read by byte offsets. Here every access is checked: `none` stands for an index beyond the end, for the ends
of a slice in the wrong order or inside a character, and for a difference below zero. It also stands for a loop that goes
on from where it is. Where a cursor stands, and between two cursors, no check fails.

* `Checked.minus?`, `Checked.byte?`, `Checked.char?`, `Checked.cursor?`, `Checked.text?`: the accesses.
* `Checked.ahead?`: the place from where a loop goes on.
* `Cursor.At`: the cursor stands somewhere in a source.
* `At.cursor?`, `At.text?`, `At.byte?`: what the accesses give there.
* `Checked.position?`: line and column of an offset, from a list that is searched; `position?_eq` says that any offset
  has them.
-/

namespace Fluent

/-- The bytes of a text. -/
def utf8 (cs : List Char) : List UInt8 := cs.flatMap String.utf8EncodeChar

theorem length_utf8 (cs : List Char) : (utf8 cs).length = byteCount cs := by
  induction cs with
  | nil => rfl
  | cons c cs ih => rw [utf8, List.flatMap_cons, ← utf8, List.length_append, String.length_utf8EncodeChar, byteCount, ih]

/-- The last byte of a character. -/
def lastByte (c : Char) : UInt8 := (String.utf8EncodeChar c).getLastD 0

/-- The last byte of a character beyond the ASCII alphabet is no character of that alphabet. -/
theorem lastByte_eq_iff {c d : Char} (hd : d.toNat < 128) : lastByte c = UInt8.ofNat d.toNat ↔ c = d := by
  have hlt : c.val.toNat < 1114112 := by
    rcases c.valid with hvalid | hvalid <;> omega
  have hchar : c = d ↔ c.toNat = d.toNat :=
    ⟨fun h => by rw [h], fun h => Char.ext (UInt32.toNat_inj.1 h)⟩
  rw [hchar, ← UInt8.toNat_inj, UInt8.toNat_ofNat']
  unfold lastByte String.utf8EncodeChar Char.toNat at *
  simp only
  split
  · simp only [List.getLastD_cons, List.getLastD_nil, UInt8.toNat_ofNat']
    omega
  · split
    · simp only [List.getLastD_cons, List.getLastD_nil, UInt8.toNat_ofNat']
      omega
    · split
      · simp only [List.getLastD_cons, List.getLastD_nil, UInt8.toNat_ofNat']
        omega
      · simp only [List.getLastD_cons, List.getLastD_nil, UInt8.toNat_ofNat']
        omega

namespace Checked

/-- A difference. -/
def minus? (m n : Nat) : Option Nat := if n ≤ m then some (m - n) else none

/-- The second of two places, which is to be further on than the first. -/
def ahead? (m n : Nat) : Option { k : Nat // m < k } := if h : m < n then some ⟨n, h⟩ else none

/-- The byte at an index. -/
def byte? (source : List Char) (i : Nat) : Option UInt8 := (utf8 source)[i]?

/-- What a text begins with, up to a number of bytes. -/
def firstBytes? : Nat → List Char → Option (List Char)
  | 0, _ => some []
  | _ + 1, [] => none
  | n + 1, c :: cs => if c.utf8Size ≤ n + 1 then (firstBytes? (n + 1 - c.utf8Size) cs).map (c :: ·) else none

/-- The slice between two offsets. -/
def text? (source : List Char) (start stop : Nat) : Option (List Char) := do
  let count ← minus? stop start
  let rest ← fromOffset? start source
  firstBytes? count rest

/-- What stands at an offset and behind it. -/
def cursor? (source : List Char) (offset : Nat) : Option Cursor := (fromOffset? offset source).map (⟨offset, ·⟩)

/-- The character whose first byte is at an index. -/
def char? (source : List Char) (i : Nat) : Option Char := (fromOffset? i source).bind List.head?

theorem minus?_of_le {m n : Nat} (h : n ≤ m) : minus? m n = some (m - n) := if_pos h

theorem ahead?_of_lt {m n : Nat} (h : m < n) : ahead? m n = some ⟨n, h⟩ := dif_pos h

theorem firstBytes?_append (xs ys : List Char) : firstBytes? (byteCount xs) (xs ++ ys) = some xs := by
  induction xs with
  | nil => rw [byteCount, firstBytes?]
  | cons x xs ih =>
    obtain ⟨n, hn⟩ := Nat.exists_eq_succ_of_ne_zero (Nat.ne_of_gt (byteCount_pos (List.cons_ne_nil x xs)))
    have hcount : x.utf8Size + byteCount xs = n + 1 := hn
    rw [hn, List.cons_append, firstBytes?, if_pos (by omega), ← hcount, Nat.add_sub_cancel_left, ih]
    rfl

end Checked

/-- The cursor stands somewhere in the source, and so at the start of a character or at the end. A checked access at its
offset finds the character that the cursor has next. -/
def Cursor.At (source : List Char) (c : Cursor) : Prop := ∃ pre, (Cursor.ofChars source).Over pre c

namespace Cursor

variable {source text : List Char} {c d : Cursor}

theorem at_ofChars (source : List Char) : (ofChars source).At source := ⟨[], .refl _⟩

namespace At

theorem move (h : c.At source) (hover : c.Over text d) : d.At source :=
  let ⟨_, hpre⟩ := h
  ⟨_, hpre.trans hover⟩

theorem skip (h : c.At source) (n : Nat) : (c.skip n).At source := h.move (over_skip n c)

theorem skipWhile (h : c.At source) (p : Char → Bool) : (c.skipWhile p).At source := h.move (over_skipWhile p c)

theorem lineEnd (h : c.At source) : c.lineEnd.At source := h.skipWhile _

theorem nextLine (h : c.At source) : c.nextLine.At source := h.lineEnd.skip 1

theorem toContent (h : c.At source) {l : Line.Next} (hl : Line.nextContent? c.rest = some l) :
    (c.toContent l).At source :=
  let ⟨_, _, hover⟩ := over_toContent hl
  h.move hover

theorem fromOffset? (h : c.At source) : fromOffset? c.offset source = some c.rest := by
  obtain ⟨pre, hpre⟩ := h
  have hoffset : c.offset = byteCount pre := hpre.offset.trans (Nat.zero_add _)
  have hsource : source = pre ++ c.rest := hpre.rest
  rw [hoffset, hsource, fromOffset?_append]

/-- A cursor stands as many bytes before the end of the source as it has text. -/
theorem offset_add (h : c.At source) : c.offset + byteCount c.rest = byteCount source :=
  byteCount_fromOffset? h.fromOffset?

theorem offset_lt_iff (h : c.At source) : c.offset < byteCount source ↔ c.rest ≠ [] := by
  have hsum := h.offset_add
  constructor
  · intro hlt hnil
    rw [hnil, byteCount] at hsum
    omega
  · intro hne
    have := byteCount_pos hne
    omega

theorem cursor? (h : c.At source) : Checked.cursor? source c.offset = some c := by
  rw [Checked.cursor?, h.fromOffset?]
  rfl

theorem char? (h : c.At source) : Checked.char? source c.offset = c.rest.head? := by
  rw [Checked.char?, h.fromOffset?]
  rfl

/-- Between two cursors a slice is the text they are apart. -/
theorem text? (h : c.At source) (hover : c.Over text d) : Checked.text? source c.offset d.offset = some text := by
  have hle := hover.offset_le
  have hcount : d.offset - c.offset = byteCount text := by
    rw [hover.offset]
    omega
  rw [Checked.text?, Checked.minus?_of_le hle, hcount, h.fromOffset?, hover.rest]
  exact Checked.firstBytes?_append text d.rest

/-- In front of a cursor there is the last byte of the text before it. -/
theorem byte? (h : c.At source) (hover : c.Over text d) {x : Char} (hx : text.getLast? = some x) :
    Checked.byte? source (d.offset - 1) = some (lastByte x) := by
  obtain ⟨pre, hpre⟩ := h
  have hsource : source = pre ++ c.rest := hpre.rest
  have hoffset : c.offset = byteCount pre := hpre.offset.trans (Nat.zero_add _)
  obtain ⟨init, rfl⟩ := List.getLast?_eq_some_iff.1 hx
  have hbytes : String.utf8EncodeChar x ≠ [] := fun hnil => by
    have hlength := String.length_utf8EncodeChar x
    have := x.utf8Size_pos
    rw [hnil, List.length_nil] at hlength
    omega
  obtain ⟨bs, b, hb⟩ := List.eq_nil_or_concat _ |>.resolve_left hbytes
  have hcount : bs.length + 1 = x.utf8Size := by
    rw [← String.length_utf8EncodeChar, hb, List.concat_eq_append, List.length_append, List.length_singleton]
  have hutf8 : utf8 source = (utf8 (pre ++ init) ++ bs) ++ b :: utf8 d.rest := by
    rw [hsource, hover.rest]
    simp [utf8, hb]
  have hindex : d.offset - 1 = (utf8 (pre ++ init) ++ bs).length := by
    rw [hover.offset, hoffset, List.length_append, length_utf8]
    simp only [byteCount_append, byteCount]
    omega
  rw [Checked.byte?, hutf8, hindex, List.getElem?_append_right (Nat.le_refl _), Nat.sub_self, lastByte, hb]
  simp

end At

end Cursor

namespace Checked

/-! ## Lines and columns -/

/-- What a binary search in an ascending list comes to: where the number is, or where it would be. -/
def search (xs : List Nat) (x : Nat) : Except Nat Nat :=
  let i := (xs.takeWhile (· < x)).length
  if xs[i]? = some x then .ok i else .error i

/-- The index of the last number of an ascending list that does not exceed `x`. -/
def lastUpTo? (xs : List Nat) (x : Nat) : Option Nat :=
  match search xs x with
  | .ok i => some i
  | .error i => minus? i 1

/-- The line and column of an offset. The lines start at zero and at the offsets of the map. -/
def position? (m : LineMap) (offset : Nat) : Option Position := do
  let starts := 0 :: m.starts.toList
  let line ← lastUpTo? starts offset
  let start ← starts[line]?
  let column ← minus? offset start
  return ⟨line, column⟩

def locate? (m : LineMap) (span : Span) : Option Location := do
  let start ← position? m span.start
  let stop ← position? m span.stop
  return ⟨span, start, stop⟩

/-- In an ascending list the numbers up to `x` are those below it, and `x` itself if it is there. -/
theorem length_takeWhile_le {xs : List Nat} (hxs : xs.Pairwise (· < ·)) (x : Nat) :
    (xs.takeWhile (· ≤ x)).length =
      (xs.takeWhile (· < x)).length + if xs[(xs.takeWhile (· < x)).length]? = some x then 1 else 0 := by
  induction xs with
  | nil => simp
  | cons y ys ih =>
    obtain ⟨hy, hys⟩ := List.pairwise_cons.1 hxs
    rcases Nat.lt_trichotomy y x with hlt | rfl | hgt
    · rw [List.takeWhile_cons_of_pos (by simpa using Nat.le_of_lt hlt), List.takeWhile_cons_of_pos (by simpa using hlt),
        List.length_cons, List.length_cons, ih hys, List.getElem?_cons_succ, Nat.add_right_comm]
    · have hbeyond : ys.takeWhile (· ≤ y) = [] := by
        cases ys with
        | nil => rfl
        | cons z zs => exact List.takeWhile_cons_of_neg (by simpa using hy z List.mem_cons_self)
      rw [List.takeWhile_cons_of_pos (by simp), List.takeWhile_cons_of_neg (by simp), hbeyond]
      simp
    · rw [List.takeWhile_cons_of_neg (by simpa using hgt), List.takeWhile_cons_of_neg (by simpa using Nat.le_of_lt hgt)]
      simp [Nat.ne_of_gt hgt]

/-- With a zero in front there is always such a number. -/
theorem lastUpTo?_eq {xs : List Nat} (hxs : (0 :: xs).Pairwise (· < ·)) (x : Nat) :
    lastUpTo? (0 :: xs) x = some (xs.takeWhile (· ≤ x)).length := by
  have hcount := length_takeWhile_le hxs x
  rw [List.takeWhile_cons_of_pos (by simp), List.length_cons] at hcount
  unfold lastUpTo? search
  simp only
  generalize ((0 :: xs).takeWhile (· < x)).length = i at hcount ⊢
  by_cases hi : (0 :: xs)[i]? = some x
  · rw [if_pos hi] at hcount ⊢
    exact congrArg some (Nat.add_right_cancel hcount).symm
  · rw [if_neg hi] at hcount ⊢
    simp only [minus?_of_le (show 1 ≤ i by omega), Option.some.injEq]
    omega

/-- Any offset has a line and a column. -/
theorem position?_eq (source : List Char) (offset : Nat) :
    position? (.ofChars source) offset = some ((LineMap.ofChars source).position offset) := by
  have hstarts : (LineMap.ofChars source).starts.toList = LineMap.startsFrom 0 source := rfl
  have hsorted : (0 :: LineMap.startsFrom 0 source).Pairwise (· < ·) :=
    .cons (fun _ => LineMap.lt_of_mem_startsFrom) (LineMap.pairwise_startsFrom 0 source)
  rw [LineMap.position_ofChars, position?, hstarts]
  simp only [lastUpTo?_eq hsorted offset, Option.bind_eq_bind, Option.bind_some]
  have hrun := List.takeWhile_prefix (l := LineMap.startsFrom 0 source) (· ≤ offset)
  have hbelow : ∀ x ∈ (LineMap.startsFrom 0 source).takeWhile (· ≤ offset), x ≤ offset :=
    fun x hx => by simpa using List.mem_takeWhile_imp hx
  generalize (LineMap.startsFrom 0 source).takeWhile (· ≤ offset) = passed at hrun hbelow ⊢
  obtain ⟨later, hlater⟩ := hrun
  have hline : (0 :: LineMap.startsFrom 0 source)[passed.length]? = some (passed.getLastD 0) := by
    rw [← hlater, ← List.cons_append, List.getElem?_append_left (by simp)]
    cases passed using List.reverseRecOn with
    | nil => rfl
    | append_singleton init x => simp
  have hle : passed.getLastD 0 ≤ offset := by
    cases passed using List.reverseRecOn with
    | nil => exact Nat.zero_le _
    | append_singleton init x => simpa using hbelow x (by simp)
  rw [hline, Option.bind_some, minus?_of_le hle]
  rfl

theorem locate?_eq (source : List Char) (span : Span) :
    locate? (.ofChars source) span = some ((LineMap.ofChars source).locate span) := by
  rw [locate?, position?_eq, position?_eq]
  rfl

end Checked

end Fluent
