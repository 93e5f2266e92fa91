import Fluent.Proofs.Alike
import Fluent.Proofs.Shifted

/-!
# The grammar further on in a source

The tokens of an entry that stands further on give the shifted tree, or the fault that they gave, at another place.
Only a fault at the very end may find something else behind the entry.

* `Fence.Shifted`, `Input.Shifted`: what the grammar reads, and the same further on.
* `Fault.Shifted k`: the same fault `k` bytes further on, but for what was found.
* `Likeness.shifted`: the likeness of the two readings. It leaves open where they may part, and with which faults.
* `alike_entry`: an entry that stands further on.
-/

namespace Fluent

/-- Both ends of the span lie in the part of a source that is shifted. -/
def Span.Within (bound : Nat) (s : Span) : Prop := s.start ≤ bound ∧ s.stop ≤ bound

/-- The same fence where the text up to `bound` stands `d` further on. -/
structure Fence.Shifted (d : Shift) (bound : Nat) (f f' : Fence) : Prop where
  lines : ∀ o ≤ bound, f'.lines.position (o + d.bytes) = (f.lines.position o).shift d
  position : f'.position = f.position + d.bytes
  within : f.position ≤ bound

/-- The same tokens where the text up to `bound` stands `d` further on. -/
structure Input.Shifted (d : Shift) (bound : Nat) (i i' : Input) : Prop where
  lexemes : i'.lexemes = i.lexemes.map (Lexeme.move d.bytes)
  readTo : i'.readTo = i.readTo + d.bytes
  within : ∀ l ∈ i.lexemes, l.span.Within bound
  readWithin : i.readTo ≤ bound

/-- The same fault `k` bytes further on. What was found there may be something else, since more text may follow. -/
def Fault.Shifted (k : Nat) (fault fault' : Fault) : Prop := fault'.withoutFound = (fault.move k).withoutFound

/-- A text and the same text `d` further on are read alike: the trees are shifted, and so are the faults. Where the
readings part, they may also have two faults that `exempt` relates. -/
def Likeness.shifted (d : Shift) (bound : Nat) (parted : List Lexeme → List Lexeme → Prop)
    (exempt : Fault → Fault → Prop) : Likeness where
  lexeme l l' := l' = l.move d.bytes ∧ l.span.Within bound
  parted := parted
  offset o o' := o' = o + d.bytes ∧ o ≤ bound
  touch o o' := o' = o + d.bytes
  fault x x' := x.Shifted d.bytes x' ∨ exempt x x'
  view := Location.shift d
  view' l := l
  token := by
    rintro l _ ⟨rfl, -⟩
    rfl
  start := by
    rintro l _ ⟨rfl, hwithin⟩
    exact ⟨rfl, hwithin.1⟩
  stop := by
    rintro l _ ⟨rfl, hwithin⟩
    exact ⟨rfl, hwithin.2⟩
  touchStart := by
    rintro l _ ⟨rfl, -⟩ -
    rfl
  touchStop := by
    rintro l _ ⟨rfl, -⟩ -
    rfl
  touchSign := by
    rintro l _ ⟨rfl, -⟩ -
    exact Nat.add_right_comm ..
  touch_iff := by
    rintro p q _ _ rfl rfl
    exact Nat.add_right_cancel_iff.symm
  unexpected := by
    rintro o _ e found ⟨rfl, -⟩
    exact .inl rfl
  unterminated := by
    rintro raw s s' ⟨hmove, -⟩
    obtain rfl : s' = s.move d.bytes := congrArg Lexeme.span hmove
    exact .inl rfl
  badEscape := by
    rintro raw s s' k text ⟨hmove, -⟩ -
    obtain rfl : s' = s.move d.bytes := congrArg Lexeme.span hmove
    left
    simp only [Fault.Shifted, Fault.ofBadEscape, Fault.move, Fault.withoutFound, Span.move]
    congr 2 <;> omega
  box := by
    intro ls ls' h
    rw [List.map_id'] at h
    rw [h, Location.boundingBox?_shift, Option.map_id']

section

variable {d : Shift} {bound : Nat} {parted : List Lexeme → List Lexeme → Prop} {exempt : Fault → Fault → Prop}
  {f f' : Fence} {i i' : Input}

/-- Moved tokens stand for the tokens, as far as those behind them do. -/
theorem Likeness.tokens_move {ls ms ms' : List Lexeme} (hwithin : ∀ l ∈ ls, l.span.Within bound)
    (h : (Likeness.shifted d bound parted exempt).Tokens ms ms') :
    (Likeness.shifted d bound parted exempt).Tokens (ls ++ ms) (ls.map (Lexeme.move d.bytes) ++ ms') := by
  induction ls with
  | nil => exact h
  | cons l ls ih =>
    obtain ⟨hl, hls⟩ := List.forall_mem_cons.1 hwithin
    exact .cons ⟨rfl, hl⟩ (ih hls)

theorem Input.Shifted.inputs (h : i.Shifted d bound i') : (Likeness.shifted d bound parted exempt).Inputs i i' := by
  refine ⟨?_, h.readTo, h.readWithin⟩
  have htokens : (Likeness.shifted d bound parted exempt).Tokens (i.lexemes ++ [])
      (i.lexemes.map (Lexeme.move d.bytes) ++ []) := Likeness.tokens_move h.within .nil
  rwa [List.append_nil, List.append_nil, ← h.lexemes] at htokens

/-- The fences fit, if both readings fail where they part. -/
theorem Fence.Shifted.fits (h : f.Shifted d bound f')
    (hpositional : ∀ {i i' : Input}, parted i.lexemes i'.lexemes →
      (Likeness.shifted d bound parted exempt).Positional f' (positionalArguments f i) (positionalArguments f' i'))
    (hnamed : ∀ {i i' : Input} (seen : List String), parted i.lexemes i'.lexemes →
      ∃ fault fault', namedArguments f seen i = .error fault ∧ namedArguments f' seen i' = .error fault' ∧
        (Likeness.shifted d bound parted exempt).fault fault fault') :
    (Likeness.shifted d bound parted exempt).Fits f f' := by
  refine ⟨⟨h.position, h.within⟩, ?_, ?_, hpositional, hnamed⟩
  · intro e
    left
    rw [h.position]
    rfl
  · rintro o p _ _ ⟨rfl, ho⟩ ⟨rfl, hp⟩
    show f'.locate (o + d.bytes) (p + d.bytes) = (f.locate o p).shift d
    simp only [Fence.locate, LineMap.locate, Location.shift, Span.move, h.lines o ho, h.lines p hp]

/-- The grammar reads no junk, so what it reads is shifted as a tree. -/
theorem relocate_entry {e : Entry} (h : entry f i = .ok e) : e.relocate (Location.shift d) = e.shift d := by
  cases derived_entry h with
  | message => rfl
  | term => rfl

/-- **An entry further on in a source** is the shifted entry, or has the same fault further on, where the readings
do not part. -/
theorem Likeness.Fits.alike_entry (hf : (Likeness.shifted d bound parted exempt).Fits f f')
    (hi : (Likeness.shifted d bound parted exempt).Inputs i i') :
    Alike (fun x x' => x.Shifted d.bytes x' ∨ exempt x x') (fun e e' => e' = e.shift d) (entry f i)
      (entry f' i') := by
  have hread := like_entry hf hi
  cases he : entry f i with
  | error fault =>
    rw [he] at hread
    obtain ⟨fault', hfault', hfaults⟩ := hread.of_error
    rw [hfault']
    exact .error hfaults
  | ok e =>
    rw [he] at hread
    obtain ⟨e', he', hsame⟩ := hread.of_ok
    have hshift : e' = e.relocate (Location.shift d) := (e'.relocate_eq_self fun _ => rfl).symm.trans hsame
    rw [he', hshift, relocate_entry he]
    exact .ok rfl

/-- **An entry further on in a source** is the shifted entry, or the same fault further on. -/
theorem alike_entry (hf : f.Shifted d bound f') (hi : i.Shifted d bound i') :
    Alike (Fault.Shifted d.bytes) (fun e e' => e' = e.shift d) (entry f i) (entry f' i') := by
  have hfits : (Likeness.shifted d bound (fun _ _ => False) fun _ _ => False).Fits f f' :=
    hf.fits False.elim fun _ => False.elim
  refine (hfits.alike_entry hi.inputs).mono ?_ fun _ _ he => he
  intro fault fault' hfaults
  exact hfaults.resolve_right id

end

end Fluent
