import Fluent.Proofs.FurtherOn
import Fluent.Proofs.Appended
import Fluent.Proofs.Grouping

/-!
# A source within a source

Where a source holds another one, from a line start on, what is said about the inner one holds further on:
positions, slices, and with them junk, comments and fences.

* `Embedded d source source'`: the one source stands in the other, `d` further on.
* `Embedded.position`, `Embedded.slice`: positions are shifted, slices are the same.
* `Embedded.alike_blockEntry`: an entry block is read alike.
-/

namespace Fluent

namespace LineMap

theorem startsFrom_add (o k : Nat) (cs : List Char) :
    startsFrom (o + k) cs = (startsFrom o cs).map (· + k) := by
  induction cs generalizing o with
  | nil => rfl
  | cons c cs ih =>
    simp only [startsFrom, Nat.add_right_comm o k, ih]
    split <;> rfl

theorem length_startsFrom (o : Nat) (cs : List Char) : (startsFrom o cs).length = cs.count '\n' := by
  induction cs generalizing o with
  | nil => rfl
  | cons c cs ih =>
    rw [startsFrom]
    by_cases hbreak : c = '\n'
    · subst hbreak
      rw [if_pos rfl, List.length_cons, ih, List.count_cons_self]
    · rw [if_neg hbreak, ih, List.count_cons_of_ne hbreak]

/-- Behind a line feed the last line starts. -/
theorem getLastD_startsFrom {pre : List Char} (h : AtLineStart pre) :
    (startsFrom 0 pre).getLastD 0 = byteCount pre := by
  have hcolumn := (isLineStart_iff pre []).2 h
  rw [isLineStart, position_append, beq_iff_eq] at hcolumn
  have hle := getLastD_startsFrom_le pre
  simp only at hcolumn
  omega

end LineMap

theorem takeWhile_append_of_lt {n : Nat} {xs ys : List Nat} (hys : ∀ y ∈ ys, n < y) :
    (xs ++ ys).takeWhile (· ≤ n) = xs.takeWhile (· ≤ n) := by
  induction xs with
  | nil =>
    cases ys with
    | nil => rfl
    | cons y ys => exact List.takeWhile_cons_of_neg (by simpa using hys y List.mem_cons_self)
  | cons x xs ih =>
    rw [List.cons_append, List.takeWhile_cons, List.takeWhile_cons, ih]

/-- The tokens lie in the source: none of them ends behind its last byte. This is as far as the lines of the source are
known in another one. -/
def AllWithin (source : String) (ls : List Lexeme) : Prop :=
  ∀ l ∈ ls, l.span.Within (byteCount source.toList)

/-- How far on a text stands behind another one. -/
def Shift.behind (pre : List Char) : Shift := ⟨byteCount pre, pre.count '\n'⟩

/-- One source stands in the other from a line start on, `d` further on. So lines and offsets of the one are moved in
the other, and columns stay. -/
def Embedded (d : Shift) (source source' : String) : Prop :=
  ∃ pre post, source'.toList = pre ++ (source.toList ++ post) ∧ AtLineStart pre ∧ d = .behind pre

namespace Embedded

variable {d : Shift} {source source' : String}

theorem position (h : Embedded d source source') {o : Nat} (ho : o ≤ byteCount source.toList) :
    (LineMap.ofChars source'.toList).position (o + d.bytes) =
      ((LineMap.ofChars source.toList).position o).shift d := by
  obtain ⟨pre, post, hchars, hpre, rfl⟩ := h
  -- the line starts in front are all passed, of those behind none
  have hstarts : (LineMap.startsFrom 0 source'.toList).takeWhile (· ≤ o + byteCount pre) =
      LineMap.startsFrom 0 pre ++
        ((LineMap.startsFrom 0 source.toList).takeWhile (· ≤ o)).map (· + byteCount pre) := by
    have hshifted : (fun x => decide (x ≤ o + byteCount pre)) ∘ (· + byteCount pre) =
        fun x => decide (x ≤ o) := by
      funext x
      simp
    rw [hchars, LineMap.startsFrom_append, LineMap.startsFrom_append, LineMap.startsFrom_add,
      List.takeWhile_append_of_pos, ← hshifted, ← List.takeWhile_map]
    · congr 1
      apply takeWhile_append_of_lt
      intro x hx
      have := LineMap.lt_of_mem_startsFrom hx
      omega
    · intro x hx
      have := LineMap.le_of_mem_startsFrom hx
      simp only [decide_eq_true_eq]
      omega
  rw [LineMap.position_ofChars, LineMap.position_ofChars, Shift.behind, hstarts]
  generalize (LineMap.startsFrom 0 source.toList).takeWhile (· ≤ o) = passed
  have hlast := LineMap.getLastD_startsFrom hpre
  simp only [Position.shift, List.length_append, List.length_map, LineMap.length_startsFrom]
  congr 1
  · omega
  -- the column counts from the last start passed, or from the line start that the text stands at
  rcases List.eq_nil_or_concat passed with rfl | ⟨starts, y, rfl⟩
  · simp only [List.map_nil, List.append_nil, hlast, List.getLastD_nil]
    omega
  · simp [Nat.add_sub_add_right]

/-- **The slice further on** is the slice of the inner source. -/
theorem slice (h : Embedded d source source') {s : Span} (hs : s.Within (byteCount source.toList)) :
    (Source.ofString source').slice (s.move d.bytes) = (Source.ofString source).slice s := by
  obtain ⟨pre, post, hchars, -, rfl⟩ := h
  have hlength : (s.move (byteCount pre)).stop - (s.move (byteCount pre)).start = s.stop - s.start := by
    simp only [Span.move]
    omega
  have hoffset : fromOffset? (s.move (byteCount pre)).start source'.toList =
      (fromOffset? s.start source.toList).map (· ++ post) := by
    show fromOffset? (s.start + byteCount pre) source'.toList = _
    rw [hchars, Nat.add_comm, fromOffset?_append_right, fromOffset?_append_left hs.1]
  simp only [Source.slice, Source.ofString, Shift.behind]
  rw [hlength, hoffset]
  cases hrest : fromOffset? s.start source.toList with
  | none => rfl
  | some rest =>
    have hbytes := byteCount_fromOffset? hrest
    have hstop := hs.2
    simp only [Option.map_some, Option.getD_some]
    rw [takeBytes_append_left (by omega)]

theorem locate (h : Embedded d source source') {s : Span} (hs : s.Within (byteCount source.toList)) :
    (Source.ofString source').lines.locate (s.move d.bytes) =
      ((Source.ofString source).lines.locate s).shift d := by
  simp only [LineMap.locate, Source.ofString, Location.shift, Span.move, h.position hs.1, h.position hs.2]

/-! ## Entries, comments and junk -/

variable {l : Lexeme} {ls ms : List Lexeme} {bs cs : List Block} {fault fault' : Fault}

/-- The fence at the end of the inner source is the one behind it. -/
theorem fenceAt (h : Embedded d source source') (hls : AllWithin source ls)
    (hend : (Fluent.fenceAt (.ofString source') ms).position = byteCount source.toList + d.bytes) :
    (Fluent.fenceAt (.ofString source) ls).Shifted d (byteCount source.toList)
      (Fluent.fenceAt (.ofString source') (ls.map (Lexeme.move d.bytes) ++ ms)) := by
  -- without tokens behind it, the fence of the inner source is its end
  cases ls with
  | nil =>
    refine ⟨?_, hend, Nat.le_refl _⟩
    intro o ho
    cases ms <;> exact h.position ho
  | cons l ls => exact ⟨fun o ho => h.position ho, rfl, (hls l List.mem_cons_self).1⟩

theorem flatMap_lexemes (k : Nat) (bs cs : List Block) :
    (bs.map (Block.move k) ++ cs).flatMap Block.lexemes =
      (bs.flatMap Block.lexemes).map (Lexeme.move k) ++ cs.flatMap Block.lexemes := by
  rw [List.flatMap_append, flatMap_lexemes_move]

/-- **An entry block further on** is the shifted entry, or the same fault further on. -/
theorem alike_blockEntry (h : Embedded d source source')
    (hl : AllWithin source (l :: ls)) (hbs : AllWithin source (bs.flatMap Block.lexemes))
    (hend : (Fluent.fenceAt (.ofString source') (cs.flatMap Block.lexemes)).position =
      byteCount source.toList + d.bytes) :
    Alike (Fault.Shifted d.bytes) (fun e e' => e' = e.shift d) (blockEntry (.ofString source) l ls bs)
      (blockEntry (.ofString source') (l.move d.bytes) (ls.map (Lexeme.move d.bytes))
        (bs.map (Block.move d.bytes) ++ cs)) := by
  rw [blockEntry, blockEntry, flatMap_lexemes,
    entry_readTo (Fluent.fenceAt (.ofString source') _) _ 0 (0 + d.bytes)]
  exact alike_entry (h.fenceAt hbs hend) ⟨rfl, rfl, hl, Nat.zero_le _⟩

theorem junkFrom (h : Embedded d source source') {start stop : Nat} (hstart : start ≤ byteCount source.toList)
    (hstop : stop ≤ byteCount source.toList)
    (hfault : fault'.withoutFound = (fault.move d.bytes).withoutFound) :
    (Entry.junk
      (Fluent.junkFrom (.ofString source') (start + d.bytes) (stop + d.bytes) fault')).withoutFound =
      ((Entry.junk (Fluent.junkFrom (.ofString source) start stop fault)).shift d).withoutFound := by
  have hslice := h.slice (s := ⟨start, stop⟩) ⟨hstart, hstop⟩
  have hlocate := h.locate (s := ⟨start, stop⟩) ⟨hstart, hstop⟩
  simp only [Span.move] at hslice hlocate
  simp only [Fluent.junkFrom, Entry.shift, Entry.withoutFound, Junk.shift, hslice, hlocate, hfault]

theorem blockJunk (h : Embedded d source source') (hl : l.span.Within (byteCount source.toList))
    (hbs : AllWithin source (bs.flatMap Block.lexemes))
    (hend : (Fluent.fenceAt (.ofString source') (cs.flatMap Block.lexemes)).position =
      byteCount source.toList + d.bytes)
    (hfault : fault'.withoutFound = (fault.move d.bytes).withoutFound) :
    (Fluent.blockJunk (.ofString source') (l.move d.bytes)
      (bs.map (Block.move d.bytes) ++ cs) fault').withoutFound =
      ((Fluent.blockJunk (.ofString source) l bs fault).shift d).withoutFound := by
  have hfence := h.fenceAt hbs hend
  rw [Fluent.blockJunk, Fluent.blockJunk, flatMap_lexemes, hfence.position]
  exact h.junkFrom hl.1 hfence.within hfault

theorem getLastD_mem (l : Lexeme) (ls : List Lexeme) : (l :: ls).getLast?.getD l ∈ l :: ls := by
  rw [List.getLast?_eq_some_getLast (List.cons_ne_nil l ls), Option.getD_some]
  exact List.getLast_mem _

theorem getLastD_map (k : Nat) (l : Lexeme) (ls : List Lexeme) :
    (((l :: ls).map (Lexeme.move k)).getLast?).getD (l.move k) = ((l :: ls).getLast?.getD l).move k := by
  rw [List.getLast?_map]
  cases (l :: ls).getLast? <;> rfl

theorem strayJunk (h : Embedded d source source') (hls : AllWithin source (l :: ls)) :
    (Fluent.strayJunk (.ofString source') (l.move d.bytes) (ls.map (Lexeme.move d.bytes))).withoutFound =
      ((Fluent.strayJunk (.ofString source) l ls).shift d).withoutFound := by
  have hlast := getLastD_map d.bytes l ls
  rw [List.map_cons] at hlast
  rw [Fluent.strayJunk, Fluent.strayJunk, hlast]
  refine h.junkFrom (hls l List.mem_cons_self).1 ?_ rfl
  exact (hls _ (getLastD_mem l ls)).2

theorem joinComment (h : Embedded d source source') (hls : AllWithin source (l :: ls)) :
    Fluent.joinComment (.ofString source') (l.move d.bytes) (ls.map (Lexeme.move d.bytes)) =
      (Fluent.joinComment (.ofString source) l ls).shift d := by
  have hlast := getLastD_map d.bytes l ls
  have hparts : commentPart? ∘ Lexeme.move d.bytes = commentPart? := rfl
  have hlocate := h.locate (s := ⟨l.span.start, ((l :: ls).getLast?.getD l).span.stop⟩)
    ⟨(hls l List.mem_cons_self).1, (hls _ (getLastD_mem l ls)).2⟩
  rw [Fluent.joinComment, Fluent.joinComment, ← List.map_cons, hlast, List.filterMap_map, hparts]
  simp only [Comment.shift, Comment.relocate, ← hlocate]
  rfl

end Embedded

theorem Entry.document_shift (d : Shift) (c : Comment) (e : Entry) :
    (e.document c).shift d = (e.shift d).document (c.shift d) := by
  cases e <;> rfl

end Fluent
