import Fluent.Proofs.Alike

/-!
# Faults lie in their entry

Every fault that the grammar reports is at a token of the entry, inside a string literal of it, or at its
end. So it lies between the ends of any stretch that the tokens and the fence lie in.

* `Fault.Between lo hi`: a fault between two offsets.
* `Likeness.confined lo hi`: a reading is like itself, with its tokens and so with its fault between two offsets.
* `between_of_entry`: a fault of an entry lies in the entry.
-/

namespace Fluent

/-- The span lies between two offsets, the ends included. -/
def Span.Between (lo hi : Nat) (s : Span) : Prop := lo ≤ s.start ∧ s.start ≤ s.stop ∧ s.stop ≤ hi

/-- A fault between two offsets; stray lines are not what the grammar of an entry reports. -/
structure Fault.Between (lo hi : Nat) (fault : Fault) : Prop where
  span : fault.span.Between lo hi
  not_stray : ∀ span, fault ≠ .unfinishedLine span

/-- A token between two offsets; a string literal has its quotes there. -/
structure Lexeme.Between (lo hi : Nat) (l : Lexeme) : Prop where
  span : l.span.Between lo hi
  string : ∀ raw, l.token = .string raw → l.span.start + 1 + byteCount raw.toList ≤ l.span.stop

/-- All tokens of an input lie between two offsets. -/
def Input.Between (lo hi : Nat) (i : Input) : Prop := ∀ l ∈ i.lexemes, l.Between lo hi

/-- The fence of an entry lies between two offsets. -/
def Fence.Between (lo hi : Nat) (f : Fence) : Prop := lo ≤ f.position ∧ f.position ≤ hi

/-- Any reading is like itself. Seen so, a likeness says what all of its offsets and faults have in common: here, that
they lie between two offsets. -/
def Likeness.confined (lo hi : Nat) : Likeness where
  lexeme l l' := l' = l ∧ l.Between lo hi
  parted _ _ := False
  offset o o' := o' = o ∧ lo ≤ o ∧ o ≤ hi
  touch o o' := o' = o
  fault fault _ := fault.Between lo hi
  view l := l
  view' l := l
  token := by
    rintro l _ ⟨rfl, -⟩
    rfl
  start := by
    rintro l _ ⟨rfl, ⟨hstart, hordered, hstop⟩, -⟩
    exact ⟨rfl, hstart, Nat.le_trans hordered hstop⟩
  stop := by
    rintro l _ ⟨rfl, ⟨hstart, hordered, hstop⟩, -⟩
    exact ⟨rfl, Nat.le_trans hstart hordered, hstop⟩
  touchStart := by
    rintro l _ ⟨rfl, -⟩ -
    rfl
  touchStop := by
    rintro l _ ⟨rfl, -⟩ -
    rfl
  touchSign := by
    rintro l _ ⟨rfl, -⟩ -
    rfl
  touch_iff := by
    rintro p q _ _ rfl rfl
    exact Iff.rfl
  unexpected := by
    rintro o _ e found ⟨-, hlo, hhi⟩
    exact ⟨⟨hlo, Nat.le_refl _, hhi⟩, nofun⟩
  unterminated := by
    rintro raw s s' ⟨-, hl⟩
    exact ⟨hl.span, nofun⟩
  badEscape := by
    -- a bad escape lies between the quotes of its string
    rintro raw s s' k text ⟨-, hl⟩ hwithin
    have hquotes := hl.string raw rfl
    obtain ⟨hstart, -, hstop⟩ := hl.span
    simp only at hquotes hstart hstop
    refine ⟨⟨?_, Nat.le_add_right _ _, ?_⟩, nofun⟩
    · show lo ≤ s.start + 1 + k
      omega
    · show s.start + 1 + k + byteCount text ≤ hi
      omega
  box := by
    intro ls ls' h
    rw [List.map_id', List.map_id'] at h
    rw [h]

variable {lo hi : Nat} {f : Fence} {i : Input}

theorem Input.Between.tokens (h : i.Between lo hi) : (Likeness.confined lo hi).Tokens i.lexemes i.lexemes := by
  obtain ⟨lexemes, readTo⟩ := i
  induction lexemes with
  | nil => exact .nil
  | cons l ls ih =>
    obtain ⟨hl, hls⟩ := List.forall_mem_cons.1 h
    exact .cons ⟨rfl, hl⟩ (ih hls)

/-- **A fault of an entry lies in the entry**, its end included, since it is at a token of the entry or where the next
block begins. -/
theorem between_of_entry {fault : Fault} (hf : f.Between lo hi) (h : i.Between lo hi)
    (hfault : entry f i = .error fault) : fault.Between lo hi := by
  have hfits : (Likeness.confined lo hi).Fits f f := by
    refine ⟨⟨rfl, hf⟩, fun e => ⟨⟨hf.1, Nat.le_refl _, hf.2⟩, nofun⟩, ?_, False.elim, fun _ => False.elim⟩
    rintro o p _ _ ⟨rfl, -⟩ ⟨rfl, -⟩
    rfl
  -- what was read before an entry is of no account, so it may count as read up to the lower end
  have hinputs : (Likeness.confined lo hi).Inputs ⟨i.lexemes, lo⟩ ⟨i.lexemes, lo⟩ :=
    ⟨h.tokens, rfl, Nat.le_refl lo, Nat.le_trans hf.1 hf.2⟩
  have hread := like_entry hfits hinputs
  rw [entry_readTo f i.lexemes lo i.readTo, hfault] at hread
  obtain ⟨_, -, hbetween⟩ := hread.of_error
  exact hbetween

end Fluent
