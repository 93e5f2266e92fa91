import Fluent.Proofs.Stretch
import Fluent.Token.Run

/-!
# What a step can lead to

What a step reads depends on the innermost construct, on the next character, and sometimes on the lines that follow.
Each function of the machine is described here once, case by case: what it finds, and what it leads to. So an invariant
of the machine is shown for these cases, whatever the function looks like.

* `State.ValueBegins`: behind a sign, a value begins in the same line or in a later one, or there is none.
* `State.AttributeFollows`: behind a line, the header of an attribute is read, or a line that only begins like one, or
  the entry ends.
* `State.TextReads`: a run of text ends in front of a placeable, goes on in a later line, or ends its pattern.
* `State.PlaceableReads`, `State.ArgumentsReads`, `State.VariantsReads`, `State.KeyReads`: what is read in an expression.
* `State.StepReads`: which of these a step comes to, by the innermost construct.
-/

namespace Fluent

namespace Line

variable {cs : List Char}

theorem indent_pos_of_continuesPattern {l : Next} (h : l.continuesPattern = true) : 0 < l.indent := by
  simp only [Next.continuesPattern, Bool.and_eq_true, decide_eq_true_eq] at h
  exact h.1

theorem indent_pos_of_opensAttribute {l : Next} (h : l.opensAttribute = true) : 0 < l.indent := by
  simp only [Next.opensAttribute, Bool.and_eq_true, decide_eq_true_eq] at h
  exact h.1

/-- The header of an attribute is a dot in front of a name with an equals sign. -/
theorem attributeHeader?_eq_some {a : Assignment} (h : attributeHeader? cs = some a) :
    cs = '.' :: cs.tail ∧ assignment? cs.tail = some a := by
  unfold attributeHeader? at h
  split at h
  · exact ⟨rfl, h⟩
  · simp at h

theorem dropReturn_spec (cs : List Char) :
    ∃ gap, (∀ x ∈ gap, isBlankChar x = true) ∧ dropReturn cs ++ gap = cs := by
  unfold dropReturn
  split
  · rename_i hlast
    refine ⟨['\r'], by simp [isBlankChar], ?_⟩
    exact List.dropLast_append_getLast? _ hlast
  · exact ⟨[], by simp, by simp⟩

theorem byteCount_dropReturn_le (cs : List Char) : byteCount (dropReturn cs) ≤ byteCount cs := by
  obtain ⟨gap, -, hgap⟩ := dropReturn_spec cs
  have hcount := byteCount_append (dropReturn cs) gap
  rw [hgap] at hcount
  omega

end Line

namespace State

variable {s : State} {limit : Nat} {fs : List Frame} {xs : List Char}

/-! ## Values -/

/-- What is found behind a sign and the spaces behind it, which end at `c`: a value on the same line, one that begins on
a line below, or none. -/
inductive ValueBegins (s : State) (c : Cursor) : State → Prop
  | inline : Line.isBlank c.rest = false → ValueBegins s c (openPattern { s with cursor := c } none)
  | below {l : Line.Next} : Line.isBlank c.rest = true → Line.nextContent? c.lineEnd.rest = some l →
      l.continuesPattern = true →
      ValueBegins s c (openPattern { s with cursor := c.lineEnd.toContent l } (some l.indent))
  | missing : Line.isBlank c.rest = true → ValueBegins s c (mark { s with cursor := c } .patternSkip).toLineEnd

theorem valueBegins (s : State) : s.ValueBegins (s.cursor.skipWhile (· == ' ')) s.beginValue := by
  unfold beginValue
  simp only
  split
  · rename_i hblank
    split
    · rename_i l hl
      split
      · rename_i hcontinues
        exact .below hblank hl hcontinues
      · exact .missing hblank
    · exact .missing hblank
  · rename_i hblank
    exact .inline (by simpa using hblank)

/-! ## Attributes -/

/-- What is found behind a line of an entry that is read to its end: the header of an attribute, an indented line that
begins like one but breaks down, or the end of the entry. -/
inductive AttributeFollows (s : State) : Step → Prop
  | header {l : Line.Next} {a : Line.Assignment} : Line.nextContent? s.cursor.rest = some l → 0 < l.indent →
      (s.cursor.toContent l).rest.head? = some '.' →
      Line.assignment? ((s.cursor.toContent l).skip 1).rest = some a →
      AttributeFollows s
        (.next ((emit { s with cursor := s.cursor.toContent l } .dot 1).emitAssignment a).beginValue)
  | unfinished {l : Line.Next} : Line.nextContent? s.cursor.rest = some l → 0 < l.indent →
      AttributeFollows s (.next (emitUnfinished { s with cursor := s.cursor.toContent l }))
  | stop : AttributeFollows s (.stop .complete s)

theorem attributeFollows (s : State) : s.finishLine.AttributeFollows s.betweenAttributes := by
  unfold betweenAttributes
  simp only
  split
  · rename_i l hl
    split
    · rename_i hopens
      have hindent := Line.indent_pos_of_opensAttribute hopens
      split
      · rename_i a ha
        obtain ⟨hdot, hassign⟩ := Line.attributeHeader?_eq_some ha
        refine .header hl hindent (by rw [hdot]; rfl) ?_
        rwa [Cursor.skip, List.drop_one]
      · exact .unfinished hl hindent
    · exact .stop
  · exact .stop

/-! ## Text -/

/-- A character that a run of text takes. -/
def inRun (c : Char) : Bool := c != '{' && c != '}' && c != '\n'

theorem newline_notMem_of_inRun (h : ∀ x ∈ xs, inRun x = true) : '\n' ∉ xs := fun hmem => by
  cases h '\n' hmem

section Text

variable {outer : List PatternItem} {breaks : Nat} {indent : Option Nat}

/-- A run of text that ends at a placeable. -/
theorem readText_brace (h : (s.cursor.skipWhile inRun).rest = '{' :: xs) :
    s.readText limit outer breaks indent fs =
      openPlaceable limit ⟨s.cursor.skipWhile inRun,
        .run ⟨breaks, indent, s.cursor.offset, s.cursor.rest.takeWhile inRun⟩ :: s.items,
        .pattern outer 0 none :: fs⟩ := by
  unfold readText
  rw [show (fun c => c != '{' && c != '}' && c != '\n') = inRun from rfl]
  simp only
  rw [Cursor.skip_length_takeWhile, h]
  rfl

/-- A run of text that ends its line. -/
theorem readText_newline (h : (s.cursor.skipWhile inRun).rest = '\n' :: xs) :
    s.readText limit outer breaks indent fs =
      match (Line.nextContent? (s.cursor.skipWhile inRun).rest).filter (·.continuesPattern) with
      | some l =>
        .next ⟨(s.cursor.skipWhile inRun).toContent l,
          .run ⟨breaks, indent, s.cursor.offset, Line.dropReturn (s.cursor.rest.takeWhile inRun)⟩ :: s.items,
          .pattern outer l.breaks (some l.indent) :: fs⟩
      | none =>
        .next (State.closePattern { s with cursor := s.cursor.skipWhile inRun }
          ⟨breaks, indent, s.cursor.offset, Line.dropReturn (s.cursor.rest.takeWhile inRun)⟩ outer fs) := by
  unfold readText
  rw [show (fun c => c != '{' && c != '}' && c != '\n') = inRun from rfl]
  simp only
  rw [Cursor.skip_length_takeWhile, h]
  cases Line.nextContent? ('\n' :: xs) with
  | none => rfl
  | some l =>
    simp only [Option.filter_some]
    split <;> rfl

/-- A run of text that nothing goes on with. -/
theorem readText_otherwise (hbrace : ∀ xs, (s.cursor.skipWhile inRun).rest ≠ '{' :: xs)
    (hbreak : ∀ xs, (s.cursor.skipWhile inRun).rest ≠ '\n' :: xs) :
    s.readText limit outer breaks indent fs =
      .next (State.closePattern { s with cursor := s.cursor.skipWhile inRun }
        ⟨breaks, indent, s.cursor.offset, s.cursor.rest.takeWhile inRun⟩ outer fs) := by
  unfold readText
  rw [show (fun c => c != '{' && c != '}' && c != '\n') = inRun from rfl]
  simp only
  rw [Cursor.skip_length_takeWhile]
  split
  · rename_i heq
    exact absurd heq (hbrace _)
  · rename_i heq
    exact absurd heq (hbreak _)
  · rfl

/-- What is found behind a run of text. The run is `text`; where a carriage return stands in front of the end of the
line, the run leaves it out. -/
inductive TextReads (limit : Nat) (s : State) (outer : List PatternItem) (breaks : Nat) (indent : Option Nat)
    (fs : List Frame) : Step → Prop
  | placeable {text rest : List Char} {d : Cursor} : s.cursor.Over text d → (∀ x ∈ text, inRun x = true) →
      d.rest = '{' :: rest →
      TextReads limit s outer breaks indent fs (openPlaceable limit
        ⟨d, .run ⟨breaks, indent, s.cursor.offset, text⟩ :: s.items, .pattern outer 0 none :: fs⟩)
  | below {text gap : List Char} {d : Cursor} {l : Line.Next} : s.cursor.Over (text ++ gap) d →
      (∀ x ∈ text ++ gap, inRun x = true) → (∀ x ∈ gap, Line.isBlankChar x = true) →
      Line.nextContent? d.rest = some l → l.continuesPattern = true →
      TextReads limit s outer breaks indent fs (.next ⟨d.toContent l,
        .run ⟨breaks, indent, s.cursor.offset, text⟩ :: s.items, .pattern outer l.breaks (some l.indent) :: fs⟩)
  | last {text gap : List Char} {d : Cursor} : s.cursor.Over (text ++ gap) d →
      (∀ x ∈ text ++ gap, inRun x = true) → (∀ x ∈ gap, Line.isBlankChar x = true) →
      (∀ x ∈ d.rest.head?, x = '}' ∨ x = '\n') →
      TextReads limit s outer breaks indent fs
        (.next (closePattern { s with cursor := d } ⟨breaks, indent, s.cursor.offset, text⟩ outer fs))

theorem textReads (limit : Nat) (s : State) (outer : List PatternItem) (breaks : Nat) (indent : Option Nat)
    (fs : List Frame) : s.TextReads limit outer breaks indent fs (s.readText limit outer breaks indent fs) := by
  have hover := Cursor.over_skipWhile inRun s.cursor
  have hrun : ∀ x ∈ s.cursor.rest.takeWhile inRun, inRun x = true := fun _ hx => List.mem_takeWhile_imp hx
  by_cases hbrace : ∃ xs, (s.cursor.skipWhile inRun).rest = '{' :: xs
  · obtain ⟨xs, hxs⟩ := hbrace
    rw [readText_brace hxs]
    exact .placeable hover hrun hxs
  by_cases hbreak : ∃ xs, (s.cursor.skipWhile inRun).rest = '\n' :: xs
  · obtain ⟨xs, hxs⟩ := hbreak
    obtain ⟨gap, hgap, hsplit⟩ := Line.dropReturn_spec (s.cursor.rest.takeWhile inRun)
    rw [readText_newline hxs]
    rw [← hsplit] at hover hrun
    split
    · rename_i l hl
      obtain ⟨hl, hcontinues⟩ := Option.filter_eq_some_iff.1 hl
      exact .below hover hrun hgap hl hcontinues
    · refine .last hover hrun hgap ?_
      rw [hxs]
      rintro x ⟨⟩
      exact .inr rfl
  · rw [readText_otherwise (not_exists.1 hbrace) (not_exists.1 hbreak)]
    rw [← List.append_nil (s.cursor.rest.takeWhile inRun)] at hover hrun
    refine .last hover hrun (by simp) ?_
    intro x hx
    obtain ⟨rest, hrest⟩ := List.head?_eq_some_iff.1 (Option.mem_def.1 hx)
    -- what is no brace and no line feed, but not in the run, is a closing brace
    have hends := List.head?_dropWhile_not inRun s.cursor.rest
    rw [show s.cursor.rest.dropWhile inRun = x :: rest from hrest] at hends
    have hclose : x ≠ '{' ∧ x ≠ '\n' :=
      ⟨fun h => hbrace ⟨rest, h ▸ hrest⟩, fun h => hbreak ⟨rest, h ▸ hrest⟩⟩
    exact .inl (by simpa [inRun, hclose] using hends)

end Text

/-! ## Expressions -/

/-- A text that begins with none of some characters. -/
theorem forall_head?_notMem {cs ys : List Char} (h : ∀ y ∈ ys, ∀ rest, cs ≠ y :: rest) : ∀ x ∈ cs.head?, x ∉ ys := by
  intro x hx hmem
  obtain ⟨rest, hrest⟩ := List.head?_eq_some_iff.1 (Option.mem_def.1 hx)
  exact h x hmem rest hrest

/-- What is read in a placeable. -/
inductive PlaceableReads (limit : Nat) (s : State) (fs : List Frame) : Step → Prop
  | close {xs : List Char} : s.cursor.rest = '}' :: xs →
      PlaceableReads limit s fs (.next { s.emit .closeBrace 1 with frames := fs })
  | placeable {xs : List Char} : s.cursor.rest = '{' :: xs → PlaceableReads limit s fs (s.openPlaceable limit)
  | arguments {xs : List Char} : s.cursor.rest = '(' :: xs → PlaceableReads limit s fs (s.openArguments limit)
  | arrow {xs : List Char} : s.cursor.rest = '-' :: '>' :: xs →
      PlaceableReads limit s fs (.next { s.emit .arrow 2 with frames := .variants :: fs })
  | token : (∀ x ∈ s.cursor.rest.head?, x ∉ ['{', '}', '(']) → (∀ xs, s.cursor.rest ≠ '-' :: '>' :: xs) →
      PlaceableReads limit s fs s.emitScanned

theorem placeableReads (limit : Nat) (s : State) (fs : List Frame) :
    s.PlaceableReads limit fs (s.readPlaceable limit fs) := by
  unfold readPlaceable
  split
  · rename_i hrest
    exact .close hrest
  · rename_i hrest
    exact .placeable hrest
  · rename_i hrest
    exact .arguments hrest
  · rename_i hrest
    exact .arrow hrest
  · rename_i hclose hbrace hparen harrow
    refine .token (forall_head?_notMem ?_) harrow
    simpa using ⟨hbrace, hclose, hparen⟩

/-- What is read in the arguments of a call. The marker of named arguments is put in front of the parenthesis that
closes them, or of a name with a colon behind it, if it was not put anywhere before. -/
inductive ArgumentsReads (limit : Nat) (s : State) (positional atStart : Bool) (fs : List Frame) : Step → Prop
  | nothing : s.cursor.rest = [] → ArgumentsReads limit s positional atStart fs (.stop .cutShort s)
  | close {xs : List Char} : s.cursor.rest = ')' :: xs → ArgumentsReads limit s positional atStart fs
      (.next { (if positional then s.mark .endPositional else s).emit .closeParen 1 with frames := fs })
  | placeable {xs : List Char} : s.cursor.rest = '{' :: xs → ArgumentsReads limit s positional atStart fs
      (openPlaceable limit { s with frames := .arguments positional false :: fs })
  | arguments {xs : List Char} : s.cursor.rest = '(' :: xs → ArgumentsReads limit s positional atStart fs
      (openArguments limit { s with frames := .arguments positional false :: fs })
  | token {x : Char} {xs : List Char} {named : Bool} : s.cursor.rest = x :: xs → x ∉ ['{', '(', ')'] →
      named = (positional && atStart && isIdentifierStart x && namedArgumentAhead (x :: xs)) →
      ArgumentsReads limit s positional atStart fs (.next {
        (if named then s.mark .endPositional else s).emit (Token.scan x xs).1 ((Token.scan x xs).2.length + 1) with
        frames := .arguments (positional && !named) ((Token.scan x xs).1 == .comma) :: fs })

theorem argumentsReads (limit : Nat) (s : State) (positional atStart : Bool) (fs : List Frame) :
    s.ArgumentsReads limit positional atStart fs (s.readArguments limit positional atStart fs) := by
  unfold readArguments
  split
  · rename_i hrest
    exact .nothing hrest
  · rename_i hrest
    exact .close hrest
  · rename_i hrest
    exact .placeable hrest
  · rename_i hrest
    exact .arguments hrest
  · rename_i x xs hclose hbrace hparen hrest
    exact .token hrest (by simpa using ⟨hbrace, hparen, hclose⟩) rfl

/-- What is read among variants. -/
inductive VariantsReads (s : State) (fs : List Frame) : Step → Prop
  | close {xs : List Char} : s.cursor.rest = '}' :: xs →
      VariantsReads s fs (.next { s.emit .closeBrace 1 with frames := fs })
  | key {xs : List Char} : s.cursor.rest = '[' :: xs →
      VariantsReads s fs (.next { s.emit .openBracket 1 with frames := .key false :: s.frames })
  | token : (∀ x ∈ s.cursor.rest.head?, x ∉ ['[', '}']) → VariantsReads s fs s.emitScanned

theorem variantsReads (s : State) (fs : List Frame) : s.VariantsReads fs (s.readVariants fs) := by
  unfold readVariants
  split
  · rename_i hrest
    exact .close hrest
  · rename_i hrest
    exact .key hrest
  · rename_i hclose hbracket
    refine .token (forall_head?_notMem ?_)
    simpa using ⟨hbracket, hclose⟩

/-- What is read in the brackets of a variant: the key, unless it was read before, and a value behind the brackets. -/
inductive KeyReads (s : State) (fs : List Frame) : Bool → Step → Prop
  | close {read : Bool} {xs : List Char} : s.cursor.rest = ']' :: xs →
      KeyReads s fs read (.next (beginValue { s.emit .closeBracket 1 with frames := fs }))
  | unclosed : KeyReads s fs true (.next { s with frames := fs })
  | token : KeyReads s fs false (emitScanned { s with frames := .key true :: fs })

theorem keyReads (s : State) (read : Bool) (fs : List Frame) : s.KeyReads fs read (s.readKey read fs) := by
  unfold readKey
  split
  · rename_i hrest
    exact .close hrest
  · cases read with
    | true => exact .unclosed
    | false => exact .token

/-! ## Steps -/

/-- What a step does. It goes by the innermost construct: outside of all of them the next attribute is looked for, the
text of a pattern is read as it stands, and in every other construct the layout in front of the next token is passed. -/
inductive StepReads (limit : Nat) (s : State) : Step → Prop
  | outside : s.frames = [] → StepReads limit s s.betweenAttributes
  | pattern {outer : List PatternItem} {breaks : Nat} {indent : Option Nat} {fs : List Frame} :
      s.frames = .pattern outer breaks indent :: fs → StepReads limit s (s.readText limit outer breaks indent fs)
  | placeable {fs : List Frame} : s.frames = .placeable :: fs →
      StepReads limit s (s.onContent (readPlaceable limit · fs))
  | arguments {positional atStart : Bool} {fs : List Frame} : s.frames = .arguments positional atStart :: fs →
      StepReads limit s (s.onContent (readArguments limit · positional atStart fs))
  | variants {fs : List Frame} : s.frames = .variants :: fs → StepReads limit s (s.onContent (readVariants · fs))
  | key {read : Bool} {fs : List Frame} : s.frames = .key read :: fs →
      StepReads limit s (s.onContent (readKey · read fs))

theorem stepReads (limit : Nat) (s : State) : s.StepReads limit (s.step limit) := by
  unfold step
  split
  · rename_i hfs
    exact .outside hfs
  · rename_i hfs
    exact .pattern hfs
  · rename_i hfs
    exact .placeable hfs
  · rename_i hfs
    exact .arguments hfs
  · rename_i hfs
    exact .variants hfs
  · rename_i hfs
    exact .key hfs

end State

end Fluent
