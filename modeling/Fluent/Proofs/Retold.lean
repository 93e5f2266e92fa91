import Fluent.Proofs.Alike
import Fluent.Proofs.Placeless

/-!
# The grammar on the same tokens elsewhere

The grammar compares positions only to see what touches: a sign and its name, a name and its accessor. So tokens
that are the same, and touch where the others do, give the same tree or the same fault, but for places.

* `Matching`: offsets of two sources, matched one to one.
* `Lexeme.Retold`, `Input.Retold`: the same tokens, those that may touch at matching offsets.
* `Likeness.retold`: the likeness of their readings.
* `retold_entry`: an entry of the same tokens.
-/

namespace Fluent

/-- Offsets of two sources, matched one to one. The grammar only asks whether two offsets are equal, so this is as much
as it can see of them. -/
structure Matching where
  pairs : Nat → Nat → Prop
  eq_iff : ∀ {p q p' q' : Nat}, pairs p p' → pairs q q' → (p = q ↔ p' = q')

/-- The same token, at matching offsets where the grammar compares them. A sign is one byte long, so its end is known
from its start. -/
structure Lexeme.Retold (M : Matching) (l l' : Lexeme) : Prop where
  token : l'.token = l.token
  start : l.token.touches = true → M.pairs l.span.start l'.span.start
  stop : l.token.touches = true → M.pairs l.span.stop l'.span.stop
  sign : l.token.isSign = true → l.span.stop = l.span.start + 1 ∧ l'.span.stop = l'.span.start + 1

/-- The same tokens. -/
def Input.Retold (M : Matching) (i i' : Input) : Prop := List.Forall₂ (Lexeme.Retold M) i.lexemes i'.lexemes

/-- The same fault, wherever it was noticed: what was expected and what was found agree, and the places may differ. -/
def Fault.Retold (fault fault' : Fault) : Prop := fault'.placeless = fault.placeless

/-- Equal under `g`. -/
def SameUnder {α γ : Type} (g : α → γ) (a a' : α) : Prop := g a' = g a

/-- Tokens that touch where the others do are read alike: the trees agree but for their locations, and the faults but
for their places. -/
def Likeness.retold (M : Matching) : Likeness where
  lexeme := Lexeme.Retold M
  parted _ _ := False
  offset _ _ := True
  touch := M.pairs
  fault := Fault.Retold
  view := Location.wipe
  view' := Location.wipe
  token hl := hl.token
  start _ := trivial
  stop _ := trivial
  touchStart hl := hl.start
  touchStop hl := hl.stop
  touchSign := by
    -- a sign ends where its name has to begin
    intro l l' hl hsign
    obtain ⟨hstop, hstop'⟩ := hl.sign hsign
    rw [← hstop, ← hstop']
    exact hl.stop (Token.touches_of_isSign hsign)
  touch_iff := M.eq_iff
  unexpected _ := rfl
  unterminated _ := rfl
  badEscape _ _ := rfl
  box := by
    -- there is a box around some locations, and none around none
    intro ls ls' h
    have hlength : ls'.length = ls.length := by
      rw [← List.length_map Location.wipe, h, List.length_map]
    cases ls with
    | nil =>
      obtain rfl := List.length_eq_zero_iff.1 hlength
      rfl
    | cons l ls =>
      obtain ⟨l', ls', rfl⟩ := List.exists_cons_of_length_eq_add_one hlength
      rfl

variable {M : Matching} {f f' : Fence} {i i' : Input}

theorem Input.Retold.inputs (hi : i.Retold M i') : (Likeness.retold M).Inputs i i' := by
  refine ⟨?_, trivial⟩
  obtain ⟨lexemes, readTo⟩ := i
  obtain ⟨lexemes', readTo'⟩ := i'
  simp only [Input.Retold] at hi ⊢
  induction hi with
  | nil => exact .nil
  | cons hl _ ih => exact .cons hl ih

/-- **An entry of the same tokens** is the same entry but for its locations, or has the same fault. -/
theorem retold_entry (hf : f'.found = f.found) (hi : i.Retold M i') :
    Alike Fault.Retold (SameUnder Entry.unlocated) (entry f i) (entry f' i') := by
  have hfits : (Likeness.retold M).Fits f f' := by
    refine ⟨trivial, ?_, fun _ _ => rfl, False.elim, fun _ => False.elim⟩
    intro e
    rw [hf]
    rfl
  exact like_entry hfits hi.inputs

end Fluent
