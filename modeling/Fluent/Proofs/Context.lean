import Fluent.Proofs.Entries
import Fluent.Proofs.Junk
import Fluent.Proofs.Labels

/-!
# The lines around a fault

A report shows the lines around a fault and marks the one on which the fault starts. For junk this is a line that the
junk covers, or the line right behind it: a fault may be at the first token behind the junk.

* `markedLines context`: the lines of a context that are marked.
* `markedLines_sourceContext`: **only the line where a location starts is marked**, if it is counted as a line.
* `Junk.CoversLine`: a line that junk covers, at least in part.
* `fault_of_mem_parse`: the fault of junk starts in it, or where it ends.
* `junk_context`: **what is marked for the fault of junk**.
* `exists_marked_behind`: neither that line nor any other one that the junk covers need be marked.
-/

namespace Fluent

/-! ## Marked lines -/

/-- The lines of a context with a mark in front of them. -/
def markedLines (context : String) : List (List Char) :=
  (context.toList.splitOn '\n').filter (['>', '>'].isPrefixOf ·)

/-- A line of a context: the mark, the number of a source line, and its text. -/
def contextLine (marked : Bool) (n : Nat) (text : List Char) : List Char :=
  ((if marked then ">>" else "  ") ++ " " ++ alignThree (n + 1) ++ " | ").toList ++ text

theorem newline_notMem_alignThree (n : Nat) : '\n' ∉ (alignThree n).toList := by
  rw [alignThree, String.toList_ofList]
  intro hmem
  rcases List.mem_append.1 hmem with hspace | hdigit
  · cases List.eq_of_mem_replicate hspace
  · simp only [toString, String.toList_ofList, Nat.repr] at hdigit
    exact newline_notMem_toDigits n hdigit

theorem newline_notMem_contextLine (marked : Bool) (n : Nat) {text : List Char} (h : '\n' ∉ text) :
    '\n' ∉ contextLine marked n text := by
  have hnumber := newline_notMem_alignThree (n + 1)
  cases marked <;> simp [contextLine, h, hnumber]

theorem isPrefixOf_contextLine (marked : Bool) (n : Nat) (text : List Char) :
    ['>', '>'].isPrefixOf (contextLine marked n text) = marked := by
  cases marked <;> simp [contextLine, List.isPrefixOf]

/-- Lines that were put together are found again. -/
theorem splitOn_flatMap {ls : List (List Char)} (h : ∀ l ∈ ls, '\n' ∉ l) :
    (ls.flatMap (· ++ ['\n'])).splitOn '\n' = ls ++ [[]] := by
  induction ls with
  | nil => simp
  | cons l ls ih =>
    obtain ⟨hl, hls⟩ := List.forall_mem_cons.1 h
    rw [List.flatMap_cons, List.append_assoc, List.singleton_append, List.splitOn_append_cons_self,
      List.splitOn_eq_singleton hl, ih hls]
    rfl

/-- One element of a list has a number, if there are as many. -/
theorem filter_zipIdx {α : Type} (xs : List α) (n k : Nat) :
    (xs.zipIdx k).filter (fun x => x.2 = n + k) = (xs[n]?.map (·, n + k)).toList := by
  induction xs generalizing n k with
  | nil => rfl
  | cons x xs ih =>
    have hnone : ∀ m, m ≤ k → (xs.zipIdx (k + 1)).filter (fun x => x.2 = m) = [] := by
      intro m hm
      refine List.filter_eq_nil_iff.2 fun y hy => ?_
      have hle := List.le_snd_of_mem_zipIdx hy
      simp only [decide_eq_true_eq]
      omega
    cases n with
    | zero =>
      rw [List.zipIdx_cons, List.filter_cons_of_pos (by simp), Nat.zero_add, hnone k (Nat.le_refl _)]
      rfl
    | succ n =>
      have hnext := ih n (k + 1)
      rw [show n + (k + 1) = n + 1 + k by omega] at hnext
      rw [List.zipIdx_cons, List.filter_cons_of_neg (by simp), hnext, List.getElem?_cons_succ]

/-- **Only the line where a location starts is marked**, and only if it is counted as a line. -/
theorem markedLines_sourceContext (source : String) (l : Location) :
    markedLines (sourceContext source l) =
      ((Line.all source.toList)[l.start.line]?.map (contextLine true l.start.line)).toList := by
  generalize hshown : ((Line.all source.toList).zipIdx.filter
    fun x => l.start.line ≤ x.2 + 2 && x.2 ≤ l.start.line + 2) = shown
  have hcontext : (sourceContext source l).toList =
      (shown.map fun x => contextLine (x.2 = l.start.line) x.2 x.1).flatMap (· ++ ['\n']) := by
    rw [← hshown, sourceContext, String.toList_join, List.flatMap_map, List.flatMap_map]
    congr 1
    funext x
    simp [contextLine]
  have hlines : ∀ row ∈ shown.map (fun x => contextLine (x.2 = l.start.line) x.2 x.1), '\n' ∉ row := by
    rw [List.forall_mem_map, ← hshown]
    intro x hx
    refine newline_notMem_contextLine _ _ (Line.newline_notMem_all source.toList _ ?_)
    exact List.fst_mem_of_mem_zipIdx (List.mem_of_mem_filter hx)
  have hmarked : shown.filter (fun x => x.2 = l.start.line) =
      ((Line.all source.toList)[l.start.line]?.map (·, l.start.line)).toList := by
    have hnumber := filter_zipIdx (Line.all source.toList) l.start.line 0
    rw [Nat.add_zero] at hnumber
    rw [← hnumber, ← hshown, List.filter_filter]
    refine List.filter_congr fun x _ => ?_
    by_cases hx : x.2 = l.start.line <;> simp [hx]
  rw [markedLines, hcontext, splitOn_flatMap hlines, List.filter_append, List.filter_map]
  simp only [Function.comp_def, isPrefixOf_contextLine, hmarked]
  cases (Line.all source.toList)[l.start.line]? <;> simp

/-! ## Junk -/

/-- A line of the source, by its number, that junk covers, at least in part: one of the bytes that the junk lies over is
on it. -/
def Junk.CoversLine (source : String) (j : Junk) (n : Nat) : Prop :=
  ∃ k, j.location.span.covers k ∧ ((Source.ofString source).lines.position k).line = n

variable {o : ParseOptions} {source : String} {j : Junk}

/-- Where junk ends a line starts, and the junk covers the line in front of it and not that one; or else it covers the
line where it ends. -/
theorem Junk.coversLine_stop (h : j.location.span.start < j.location.span.stop) :
    if ((Source.ofString source).lines.position j.location.span.stop).column = 0 then
      ¬ j.CoversLine source ((Source.ofString source).lines.position j.location.span.stop).line ∧
        ∃ m, ((Source.ofString source).lines.position j.location.span.stop).line = m + 1 ∧ j.CoversLine source m
    else j.CoversLine source ((Source.ofString source).lines.position j.location.span.stop).line := by
  -- the last byte is on the line where the junk ends, or on the one before
  obtain ⟨k, hk⟩ : ∃ k, j.location.span.stop = k + 1 := ⟨j.location.span.stop - 1, by omega⟩
  have hcovers : j.location.span.covers k := ⟨by omega, by omega⟩
  have hnext : ((Source.ofString source).lines.position (k + 1)).line =
      ((Source.ofString source).lines.position k).line +
        if ((Source.ofString source).lines.position (k + 1)).column = 0 then 1 else 0 :=
    LineMap.line_succ source.toList k
  rw [hk]
  split
  · rename_i hcolumn
    rw [if_pos hcolumn] at hnext
    refine ⟨?_, _, hnext, k, hcovers, rfl⟩
    rintro ⟨k', hk', hsame⟩
    have hbound := hk'.2
    have hle : ((Source.ofString source).lines.position k').line ≤
        ((Source.ofString source).lines.position k).line :=
      LineMap.line_le_of_le (by omega)
    omega
  · rename_i hcolumn
    rw [if_neg hcolumn] at hnext
    exact ⟨k, hcovers, hnext.symm⟩

/-- The fault of junk in a body starts in the junk, or where it ends. -/
theorem fault_of_mem_body {limit : Nat} (hj : .junk j ∈ body (.ofString source) (tokenize limit source.toList)) :
    j.content = (Source.ofString source).slice j.location.span ∧
      j.location.span.start ≤ j.fault.span.start ∧ j.fault.span.start ≤ j.location.span.stop := by
  obtain ⟨c, hc, hleads⟩ := leads_of_mem_body hj
  have hwhole := hleads.wholeLines hc rfl
  exact ⟨hwhole.content, hwhole.fault.1, Nat.le_trans hwhole.fault.2.1 hwhole.fault.2.2⟩

/-- **The fault of junk** starts in it, or where it ends. The latter is the case where the end of the junk was found in
place of what the grammar asks for. -/
theorem fault_of_mem_parse (hj : .junk j ∈ (parse o source).body) :
    j.content = (Source.ofString source).slice j.location.span ∧
      j.location.span.start ≤ j.fault.span.start ∧ j.fault.span.start ≤ j.location.span.stop := by
  obtain ⟨policy, limit⟩ := o
  cases policy with
  | preserve => exact fault_of_mem_body hj
  | reject =>
    rcases of_mem_rejectDuplicates hj with hmem | ⟨e, he, ⟨k, -, hk⟩ | ⟨id, hid, name, hjunk⟩⟩
    · exact fault_of_mem_body hmem
    · cases hk
    · obtain rfl := Entry.junk.inj hjunk
      have hlocated : e.Located (.ofString source) := located_of_mem_parse (o := ⟨.preserve, limit⟩) he
      exact ⟨rfl, hlocated.name hid⟩

/-- **What is marked for the fault of junk.** One line is marked: the one on which the fault starts, with its number,
if the fault does not start at the end of a source that ends with a line feed. The junk covers the line, at least in
part; but where the fault starts at the end of the junk and a line starts there, it is the line right behind the last
one that the junk covers. -/
theorem junk_context (hj : .junk j ∈ (parse o source).body)
    (hend : j.fault.span.start < (Source.ofString source).size ∨ source.toList.getLast? ≠ some '\n') :
    j.content = (Source.ofString source).slice j.location.span ∧
    ∃ n text, (Line.all source.toList)[n]? = some text ∧
      n = ((Source.ofString source).lines.position j.fault.span.start).line ∧
      markedLines (sourceContext source ((Source.ofString source).lines.locate j.fault.span)) =
        [contextLine true n text] ∧
      if j.fault.span.start = j.location.span.stop ∧ j.location.stop.column = 0 then
        ¬ j.CoversLine source n ∧ ∃ m, n = m + 1 ∧ j.CoversLine source m
      else j.CoversLine source n := by
  obtain ⟨hcontent, hfirst, hlast⟩ := fault_of_mem_parse hj
  obtain ⟨hextent, hsize⟩ := (ordered_parse o source).2 _ hj
  simp only [Entry.location] at hextent hsize
  have hline : ((Source.ofString source).lines.position j.fault.span.start).line < (Line.all source.toList).length := by
    refine line_lt_length_all (hend.imp_right ?_)
    rintro hopen (hnil | hfeed)
    · simp only [Source.ofString, hnil, byteCount] at hsize
      omega
    · exact hopen hfeed
  refine ⟨hcontent, _, _, List.getElem?_eq_getElem hline, rfl, ?_, ?_⟩
  · rw [markedLines_sourceContext]
    simp only [LineMap.locate, List.getElem?_eq_getElem hline, Option.map_some, Option.toList_some]
  · have hstop : j.location.stop = (Source.ofString source).lines.position j.location.span.stop :=
      congrArg Location.stop (located_of_mem_parse hj).eq_locate
    by_cases hbehind : j.fault.span.start = j.location.span.stop
    · have hcovers := @Junk.coversLine_stop source j hextent
      simpa only [hstop, hbehind, true_and] using hcovers
    · rw [if_neg fun h => hbehind h.1]
      exact ⟨_, ⟨hfirst, Nat.lt_of_le_of_ne hlast hbehind⟩, rfl⟩

/-- The fault is at the name on the line behind the junk. -/
theorem junk_context_behind : ∃ j : Junk, .junk j ∈ (parse ⟨.preserve, 100⟩ "m = \x7b\nn = x\n").body ∧
    j.fault.span.start < (Source.ofString "m = \x7b\nn = x\n").size ∧
    ∃ n text, (Line.all "m = \x7b\nn = x\n".toList)[n]? = some text ∧
      markedLines (sourceContext "m = \x7b\nn = x\n"
        ((Source.ofString "m = \x7b\nn = x\n").lines.locate j.fault.span)) = [contextLine true n text] ∧
      ¬ j.CoversLine "m = \x7b\nn = x\n" n ∧ ∃ m, n = m + 1 ∧ j.CoversLine "m = \x7b\nn = x\n" m := by
  have hjunk : (parse ⟨.preserve, 100⟩ "m = \x7b\nn = x\n").junk.map (fun j => (j.fault.span, j.location)) =
      [(⟨6, 6⟩, ⟨⟨0, 6⟩, ⟨0, 0⟩, ⟨1, 0⟩⟩)] := by
    decide +kernel
  obtain ⟨j, hj, hdata⟩ := List.mem_map.1 (hjunk ▸ List.mem_singleton_self _)
  obtain ⟨hfault, hlocation⟩ := Prod.mk.inj hdata
  have hmem := Resource.mem_junk.1 hj
  have hsize : j.fault.span.start < (Source.ofString "m = \x7b\nn = x\n").size := by
    rw [hfault]
    decide
  have hbehind : j.fault.span.start = j.location.span.stop ∧ j.location.stop.column = 0 := by
    rw [hfault, hlocation]
    exact ⟨rfl, rfl⟩
  obtain ⟨-, n, text, htext, -, hmarked, hcovers⟩ := junk_context hmem (.inl hsize)
  rw [if_pos hbehind] at hcovers
  exact ⟨j, hmem, hsize, n, text, htext, hmarked, hcovers⟩

/-- **No line of the junk need be marked.** A fault at the first token behind the junk marks the line behind it, and
one at the end of the source, behind the last line feed, marks no line at all. -/
theorem exists_marked_behind :
    (∃ j : Junk, .junk j ∈ (parse ⟨.preserve, 100⟩ "m = \x7b\nn = x\n").body ∧
      markedLines (sourceContext "m = \x7b\nn = x\n"
        ((Source.ofString "m = \x7b\nn = x\n").lines.locate j.fault.span)) = [contextLine true 1 "n = x".toList] ∧
      ¬ j.CoversLine "m = \x7b\nn = x\n" 1) ∧
    ∃ j : Junk, .junk j ∈ (parse ⟨.preserve, 100⟩ "m = \x7b\n").body ∧
      markedLines (sourceContext "m = \x7b\n" ((Source.ofString "m = \x7b\n").lines.locate j.fault.span)) = [] := by
  refine ⟨?_, ?_⟩
  · have hjunk : (parse ⟨.preserve, 100⟩ "m = \x7b\nn = x\n").junk.map
        (fun j => (j.fault.span, j.location.span)) = [(⟨6, 6⟩, ⟨0, 6⟩)] := by
      decide +kernel
    obtain ⟨j, hj, hspans⟩ := List.mem_map.1 (hjunk ▸ List.mem_singleton_self _)
    obtain ⟨hfault, hspan⟩ := Prod.mk.inj hspans
    refine ⟨j, Resource.mem_junk.1 hj, ?_, ?_⟩
    · rw [hfault]
      decide +kernel
    · rintro ⟨k, hk, hline⟩
      have hfirst : ∀ k < 6, ((Source.ofString "m = \x7b\nn = x\n").lines.position k).line ≠ 1 := by
        decide +kernel
      rw [hspan] at hk
      exact hfirst k hk.2 hline
  · have hjunk : (parse ⟨.preserve, 100⟩ "m = \x7b\n").junk.map (·.fault.span) = [⟨6, 6⟩] := by
      decide +kernel
    obtain ⟨j, hj, hfault⟩ := List.mem_map.1 (hjunk ▸ List.mem_singleton_self _)
    refine ⟨j, Resource.mem_junk.1 hj, ?_⟩
    rw [hfault]
    decide +kernel

end Fluent
