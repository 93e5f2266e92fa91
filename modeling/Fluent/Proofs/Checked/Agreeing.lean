import Fluent.Proofs.Checked.Grammar
import Fluent.Proofs.Phrase

/-!
# The grammar with checks reads the same

Where an index stands in front of the tokens that an input holds, a function of the grammar with checks reads what the
grammar reads, or finds the same fault, and no check fails.

* `Parser.Fits`: the parser sees what a fence lets the grammar see.
* `Parser.Stands`: an index stands where an input does.
* `Parser.Agrees`: the same is read.
* `agrees_inline`, `agrees_pattern?`, `agrees_attributes`, ...: one for each function of the grammar.
-/

namespace Fluent

namespace Checked

/-! ## Escapes -/

theorem utf8Size_of_isHexDigit {x : Char} (h : Text.isHexDigit x = true) : x.utf8Size = 1 := by
  have hx : x.val ≤ 127 := by
    simp only [Text.isHexDigit, Char.isDigit, Bool.or_eq_true, Bool.and_eq_true, decide_eq_true_eq] at h
    rcases h with (⟨-, h⟩ | ⟨-, h⟩) | ⟨-, h⟩ <;> exact UInt32.le_trans h (by decide)
  exact if_pos hx

theorem codePoint_eq (marker : Char) (hmarker : marker.utf8Size = 1) (n : Nat) (rest : List Char) :
    escapeUnit?.codePoint ('\\' :: marker :: rest) n rest =
      (Text.escapeUnit.codePoint marker n rest).map fun (value, k) =>
        (value, byteCount ('\\' :: (marker :: rest).take k)) := by
  unfold escapeUnit?.codePoint Text.escapeUnit.codePoint
  simp only
  split
  · rename_i hdigits
    have hcount : byteCount (rest.take n) = n := by
      rw [byteCount_eq_length fun x hx => utf8Size_of_isHexDigit (List.all_eq_true.1 hdigits.2 x hx), hdigits.1]
    have hone : ('\\' : Char).utf8Size = 1 := rfl
    simp only [Except.map, List.take_succ_cons, byteCount, hone, hmarker, hcount]
    congr 2
    omega
  · rfl

/-- A unit and its length in bytes. -/
theorem escapeUnit?_eq (c : Char) (cs : List Char) :
    escapeUnit? (c :: cs) =
      some ((Text.escapeUnit c cs).map fun (value, n) => (value, byteCount (c :: cs.take n))) := by
  generalize hraw : c :: cs = raw
  unfold escapeUnit?
  split
  · cases hraw
  · cases hraw
    rfl
  · cases hraw
    rfl
  · cases hraw
    rfl
  · cases hraw
    exact congrArg some (codePoint_eq 'u' rfl 4 _)
  · cases hraw
    exact congrArg some (codePoint_eq 'U' rfl 6 _)
  · rename_i other rest hslash hquote hu hU
    cases hraw
    have hunit : Text.escapeUnit '\\' (other :: rest) = .error ['\\', other] := by
      unfold Text.escapeUnit
      rw [if_neg (by simp)]
      split <;> simp_all
    have hslice : text? ('\\' :: other :: rest) 0 (1 + other.utf8Size) = some ['\\', other] := by
      have hcount : 1 + other.utf8Size = byteCount ['\\', other] := rfl
      rw [hcount]
      exact firstBytes?_append ['\\', other] rest
    rw [hunit, hslice]
    rfl
  · rename_i x xs h₁ h₂ h₃ h₄ h₅ h₆
    cases hraw
    have hc : c ≠ '\\' := by
      rintro rfl
      cases cs with
      | nil => exact h₁ rfl rfl
      | cons y ys => exact h₆ y ys rfl rfl
    have hunit : Text.escapeUnit c cs = .ok (c, 0) := by
      unfold Text.escapeUnit
      rw [if_pos hc]
    rw [hunit]
    rfl

/-- The escapes of a string literal, from an offset in it on. -/
theorem unescape?_eq (offset : Nat) {raw : List Char} {c : Cursor} (hc : c.At raw) :
    unescape? offset raw c.offset = some (Text.unescape (offset + c.offset) c.rest) := by
  generalize hplace : offset + c.offset = place
  generalize hrest : c.rest = cs
  fun_induction Text.unescape place cs generalizing c with
  | case1 place =>
    rw [unescape?, if_neg fun hlt => hc.offset_lt_iff.1 hlt hrest]
    rfl
  | case2 place x xs bad hunit =>
    rw [unescape?, if_pos (hc.offset_lt_iff.2 (by simp [hrest]))]
    simp only [hc.cursor?, Option.bind_eq_bind, Option.bind_some, hrest, escapeUnit?_eq, hunit, hplace]
    rfl
  | case3 place x xs value n hunit ih =>
    have hover : c.Over (x :: xs.take n) ⟨c.offset + byteCount (x :: xs.take n), xs.drop n⟩ :=
      ⟨by rw [hrest, List.cons_append, List.take_append_drop], rfl⟩
    have hmore := ih (hc.move hover) (by rw [← hplace, Nat.add_assoc]) rfl
    have hahead : c.offset < c.offset + byteCount (x :: xs.take n) := hover.offset_lt (List.cons_ne_nil _ _)
    rw [unescape?, if_pos (hc.offset_lt_iff.2 (by simp [hrest]))]
    simp only [hc.cursor?, Option.bind_eq_bind, Option.bind_some, hrest, escapeUnit?_eq, hunit, Except.map,
      ahead?_of_lt hahead, show unescape? offset raw (c.offset + byteCount (x :: xs.take n)) = _ from hmore]
    rfl

/-! ## Indices -/

namespace Parser

variable {p : Parser} {f : Fence} {i : Input} {n : Nat} {e : Expected}

/-- The parser sees the tokens that a fence encloses: it has the same lines, and at its limit stands what the fence says
a fault would find there. -/
structure Fits (p : Parser) (f : Fence) : Prop where
  limit_le : p.limit ≤ p.tokens.length
  lines : f.lines = .ofChars p.source
  position : f.position = (p.spanAt p.limit).start
  found : f.found = p.foundAt p.limit

/-- The index stands in front of the tokens of an input: those left of it are the ones from the index to the limit, and
what was read ends where the input says. -/
structure Stands (p : Parser) (i : Input) (n : Nat) : Prop where
  le : n ≤ p.limit
  lexemes : i.lexemes = (p.tokens.take p.limit).drop n
  readTo : i.readTo = lastEnd (p.tokens.take n)

/-- Related results, or the same fault. In either case no check has failed, since the checked reader has come to
something at all. -/
inductive Agrees (p : Parser) {α β : Type} (R : β → α → Nat → Prop) :
    Except Fault β → Option (Except Fault α × Nat) → Prop
  | ok {b : β} {a : α} {n : Nat} : R b a n → Agrees p R (.ok b) (some (.ok a, n))
  | error {x : Fault} {n : Nat} : n ≤ p.limit → Agrees p R (.error x) (some (.error x, n))

/-- The same is read, and the index stands behind it. This is the relation that most functions of the grammar keep. -/
def Same (p : Parser) {α : Type} {q : Input → Prop} (b : α × Subtype q) (a : α) (n : Nat) : Prop :=
  a = b.1 ∧ p.Stands b.2 n

/-- Reading on in both: if what was read agrees, and whatever comes next does from there on, then so does the whole. -/
theorem Agrees.bind {α α' β β' : Type} {R : β → α → Nat → Prop} {S : β' → α' → Nat → Prop} {r : Except Fault β}
    {x : Reader α} {g : β → Except Fault β'} {g' : α → Reader α'} (h : p.Agrees R r (x n))
    (hg : ∀ b a m, R b a m → p.Agrees S (g b) (g' a m)) : p.Agrees S (r >>= g) ((x >>= g') n) := by
  have hbind : (x >>= g') n = (x n).bind fun (a, m) => ExceptT.bindCont g' a m := rfl
  rw [hbind]
  generalize x n = y at h
  cases h with
  | ok h => exact hg _ _ _ h
  | error h => exact .error h

/-- Reading on behind something that is read. -/
theorem Agrees.read {α α' β' : Type} {q : Input → Prop} {S : β' → α' → Nat → Prop}
    {r : Except Fault (α × Subtype q)} {x : Reader α} {g : α × Subtype q → Except Fault β'} {g' : α → Reader α'}
    (h : p.Agrees p.Same r (x n)) (hg : ∀ a j hj m, p.Stands j m → p.Agrees S (g (a, ⟨j, hj⟩)) (g' a m)) :
    p.Agrees S (r >>= g) ((x >>= g') n) := by
  refine h.bind ?_
  rintro ⟨b, j, hj⟩ a m ⟨rfl, hm⟩
  exact hg a j hj m hm

/-- A reader that is known to succeed is left out of a `do` block, with its result put in. -/
theorem bind_of_read {α β : Type} {x : Reader α} {a : α} {m : Nat} (g : α → Reader β) (h : x n = some (.ok a, m)) :
    (x >>= g) n = g a m := by
  have hbind : (x >>= g) n = (x n).bind fun (a, m) => ExceptT.bindCont g a m := rfl
  rw [hbind, h]
  rfl

section Steps

variable {α : Type} (g : Option Token → Reader α) (h : Span → Reader α) (k : Bool → Reader α) (l : Location → Reader α)

theorem peek_bind (n : Nat) : (p.peek >>= g) n = g (p.tokenAt? n) n := rfl

theorem peekSecond_bind (n : Nat) : (p.peekSecond >>= g) n = g (p.tokenAt? (n + 1)) n := rfl

theorem span_bind (n : Nat) : (p.span >>= h) n = h (p.spanAt n) n := rfl

theorem advance_bind (hn : n < p.limit) : (p.advance >>= h) n = h (p.spanAt n) (n + 1) := by
  show h (p.spanAt n) (if n < p.limit then n + 1 else n) = _
  rw [if_pos hn]

theorem lt_limit_of_tokenAt? {t : Token} (h : p.tokenAt? n = some t) : n < p.limit := by
  unfold tokenAt? at h
  split at h
  · assumption
  · cases h

theorem eat_bind (t : Token) (n : Nat) :
    (p.eat t >>= k) n = if p.tokenAt? n = some t then k true (n + 1) else k false n := by
  have heat : p.eat t = p.peek >>= fun next =>
      if next = some t then p.advance >>= fun _ => pure true else pure false := rfl
  rw [heat, bind_assoc, peek_bind]
  split
  · rename_i ht
    rw [bind_assoc, advance_bind _ (lt_limit_of_tokenAt? ht)]
    rfl
  · rfl

theorem checked_bind {β : Type} (k : β → Reader α) (b : β) (n : Nat) : (checked (some b) >>= k) n = k b n := rfl

theorem locate_bind (hf : p.Fits f) (start stop n : Nat) :
    (p.locate start stop >>= l) n = l (f.locate start stop) n := by
  rw [locate, locate?_eq, Fence.locate, hf.lines]
  rfl

end Steps

/-! ## Tokens -/

theorem lastEnd_concat (ls : List Lexeme) (l : Lexeme) :
    lastEnd (ls ++ [l]) = if l.token.isMarker then lastEnd ls else l.span.stop := by
  unfold lastEnd
  rw [List.reverse_append, List.reverse_singleton, List.singleton_append, List.find?_cons]
  cases l.token.isMarker <;> rfl

theorem tokenAt?_eq (p : Parser) (n : Nat) : p.tokenAt? n = (p.tokens.take p.limit)[n]?.map (·.token) := by
  rw [tokenAt?, List.getElem?_take]
  split <;> rfl

namespace Stands

theorem getElem? (h : p.Stands i n) (k : Nat) : i.lexemes[k]? = (p.tokens.take p.limit)[n + k]? := by
  rw [h.lexemes, List.getElem?_drop]

theorem peek? (h : p.Stands i n) : i.peek? = p.tokenAt? n := by
  rw [Input.peek?, List.head?_eq_getElem?, h.getElem?, tokenAt?_eq]
  rfl

theorem peekSecond? (h : p.Stands i n) : i.peekSecond? = p.tokenAt? (n + 1) := by
  rw [Input.peekSecond?, h.getElem?, tokenAt?_eq]

/-- Without a token left, the index stands at the limit. -/
theorem eq_limit (h : p.Stands i n) (hlimit : p.limit ≤ p.tokens.length) (hnil : i.lexemes = []) : n = p.limit := by
  have hlength := congrArg List.length h.lexemes
  rw [hnil, List.length_drop, List.length_take, Nat.min_eq_left hlimit, List.length_nil] at hlength
  exact Nat.le_antisymm h.le (Nat.le_of_sub_eq_zero hlength.symm)

/-- The index stands in front of the next token. -/
theorem getElem?_of_cons (h : p.Stands i n) {l : Lexeme} {ls : List Lexeme} (hcons : i.lexemes = l :: ls) :
    n < p.limit ∧ p.tokens[n]? = some l := by
  have hnext := h.getElem? 0
  rw [hcons, Nat.add_zero, List.getElem?_take] at hnext
  split at hnext
  · exact ⟨‹_›, hnext.symm⟩
  · cases hnext

/-- Behind the next token. -/
theorem tail (h : p.Stands i n) {l : Lexeme} {ls : List Lexeme} (hcons : i.lexemes = l :: ls) :
    p.Stands ⟨ls, if l.token.isMarker then i.readTo else l.span.stop⟩ (n + 1) := by
  obtain ⟨hlt, hnext⟩ := h.getElem?_of_cons hcons
  refine ⟨hlt, ?_, ?_⟩
  · rw [← List.tail_drop, ← h.lexemes, hcons]
    rfl
  · rw [List.take_add_one, hnext, Option.toList_some, lastEnd_concat, h.readTo]

theorem next? (h : p.Stands i n) :
    (i.next? = none ∧ p.tokenAt? n = none) ∨ ∃ t span j hj, i.next? = some (⟨t, span⟩, ⟨j, hj⟩) ∧
      p.tokenAt? n = some t ∧ p.spanAt n = span ∧ p.Stands j (n + 1) := by
  have hpeek := h.peek?
  rcases hi : i with ⟨ls, readTo⟩
  cases ls with
  | nil => exact .inl ⟨rfl, by rw [← hpeek, hi]; rfl⟩
  | cons l ls =>
    subst hi
    obtain ⟨-, hnext⟩ := h.getElem?_of_cons rfl
    exact .inr ⟨l.token, l.span, _, _, rfl, hpeek.symm, by rw [spanAt, hnext]; rfl, h.tail rfl⟩

/-- A token that may be missing is read where it stands. -/
theorem takes (h : p.Stands i n) {t : Token} {b : Bool} {j : Input} (htakes : i.Takes t b j) {α : Type} :
    ∃ m, p.Stands j m ∧ n ≤ m ∧ ∀ k : Bool → Reader α, (p.eat t >>= k) n = k b m := by
  cases htakes with
  | read hnext =>
    rcases h.next? with ⟨hnone, -⟩ | ⟨_, _, _, _, hsome, htoken, -, hrest⟩
    · cases hnext.symm.trans hnone
    · cases hnext.symm.trans hsome
      exact ⟨n + 1, hrest, Nat.le_succ n, fun k => (eat_bind k t n).trans (if_pos htoken)⟩
  | missing hpeek =>
    exact ⟨n, h, Nat.le_refl n, fun k => (eat_bind k t n).trans (if_neg (h.peek? ▸ hpeek))⟩

theorem offset (h : p.Stands i n) (hf : p.Fits f) : f.offset i = (p.spanAt n).start := by
  rcases hi : i with ⟨ls, readTo⟩
  cases ls with
  | nil =>
    rw [h.eq_limit hf.limit_le (by rw [hi])]
    exact hf.position
  | cons l ls =>
    obtain ⟨-, hnext⟩ := h.getElem?_of_cons (by rw [hi])
    rw [spanAt, hnext]
    rfl

end Stands

theorem previousEnd_bind {α : Type} (g : Nat → Reader α) (h : p.Stands i n) (hf : p.Fits f) :
    (p.previousEnd >>= g) n = g i.readTo n := by
  have hread : firsts? n p.tokens = some (p.tokens.take n) := if_pos (Nat.le_trans h.le hf.limit_le)
  have hend : p.previousEnd n = some (.ok i.readTo, n) := by
    show (checked (firsts? n p.tokens) >>= fun read => (pure (lastEnd read) : Reader Nat)) n = _
    rw [hread, h.readTo]
    rfl
  exact bind_of_read g hend

variable {α β : Type} {R : β → α → Nat → Prop}

/-- A fault tells of the next token in both readings, or of what the fence says stands behind the last one. -/
theorem agrees_fault (hf : p.Fits f) (h : p.Stands i n) : p.Agrees R (.error (f.fault i e)) (p.fault e n) := by
  have hfault : f.fault i e = .unexpected (p.spanAt n).start e (p.foundAt n) := by
    rw [Fence.fault, h.offset hf]
    congr 1
    rcases hi : i with ⟨ls, readTo⟩
    cases ls with
    | nil =>
      rw [h.eq_limit hf.limit_le (by rw [hi])]
      exact hf.found
    | cons l ls =>
      obtain ⟨-, hnext⟩ := h.getElem?_of_cons (by rw [hi])
      rw [foundAt, hnext]
      rfl
  rw [hfault]
  exact .error h.le

theorem advance_of_lt (hn : n < p.limit) : p.advance n = some (.ok (p.spanAt n), n + 1) := by
  show some (Except.ok (p.spanAt n), if n < p.limit then n + 1 else n) = _
  rw [if_pos hn]

theorem agrees_expect (hf : p.Fits f) (h : p.Stands i n) (t : Token) :
    p.Agrees p.Same (f.expect t e i) (p.expect t e n) := by
  have hexpect : p.expect t e n = if p.tokenAt? n = some t then p.advance n else p.fault e n := by
    show (if p.tokenAt? n = some t then p.advance else p.fault e) n = _
    split <;> rfl
  rw [hexpect]
  unfold Fence.expect
  rcases h.next? with ⟨hnone, hnone'⟩ | ⟨u, span, j, hj, hnext, htoken, hspan, hrest⟩
  · rw [hnone, hnone', if_neg (by simp)]
    exact agrees_fault hf h
  · rw [hnext]
    by_cases ht : u = t
    · simp only [if_pos ht, if_pos (htoken.trans (congrArg some ht)), advance_of_lt (lt_limit_of_tokenAt? htoken)]
      exact .ok ⟨hspan, hrest⟩
    · simp only [htoken, if_neg ht, Option.some.injEq]
      exact agrees_fault hf h

theorem expect_bind {t : Token} (h : p.tokenAt? n = some t) (g : Span → Reader α) :
    (p.expect t e >>= g) n = g (p.spanAt n) (n + 1) := by
  refine bind_of_read g ?_
  show (if p.tokenAt? n = some t then p.advance else p.fault e) n = _
  rw [if_pos h, advance_of_lt (lt_limit_of_tokenAt? h)]

theorem identifier_bind (hf : p.Fits f) {name : String} (h : p.tokenAt? n = some (.identifier name))
    (g : Identifier → Reader α) :
    (p.identifier e >>= g) n = g ⟨name, f.lines.locate (p.spanAt n)⟩ (n + 1) := by
  refine bind_of_read g ?_
  unfold identifier
  rw [peek_bind, h]
  simp only [advance_bind _ (lt_limit_of_tokenAt? h), locate_bind _ hf]
  rfl

theorem agrees_identifier (hf : p.Fits f) (h : p.Stands i n) :
    p.Agrees p.Same (f.identifier e i) (p.identifier e n) := by
  unfold Fence.identifier identifier
  rw [peek_bind]
  rcases h.next? with ⟨hnone, hnone'⟩ | ⟨t, span, j, hj, hnext, htoken, hspan, hrest⟩
  · rw [hnone, hnone']
    exact agrees_fault hf h
  · rw [hnext, htoken]
    cases t with
    | identifier name =>
      simp only [advance_bind _ (lt_limit_of_tokenAt? htoken), hspan, locate_bind _ hf]
      exact .ok ⟨rfl, hrest⟩
    | _ => exact agrees_fault hf h

theorem agrees_identifierAt (hf : p.Fits f) (h : p.Stands i n) (offset : Nat) :
    p.Agrees p.Same (f.identifierAt offset e i) (p.identifierAt offset e n) := by
  unfold Fence.identifierAt identifierAt
  rw [peek_bind, span_bind, h.offset hf]
  have hid := agrees_identifier (e := e) hf h
  by_cases hoffset : (p.spanAt n).start = offset
  · rw [if_pos hoffset, if_neg (by simp [hoffset])]
    exact hid
  · rw [if_neg hoffset]
    rcases h.next? with ⟨hnone, hnone'⟩ | ⟨t, span, j, hj, hnext, htoken, hspan, hrest⟩
    · -- where no token is left, there is no identifier either
      have hfault : f.identifier e i = .error (f.fault i e) := by
        unfold Fence.identifier
        rw [hnone]
      rwa [hnone', if_neg (by simp), ← hfault]
    · rw [htoken, if_pos ⟨rfl, hoffset⟩]
      exact agrees_fault hf h

theorem agrees_number (hf : p.Fits f) (h : p.Stands i n) : p.Agrees p.Same (f.number i e) (p.number e n) := by
  unfold Fence.number number
  rw [span_bind, peek_bind]
  rcases h.next? with ⟨hnone, hnone'⟩ | ⟨t, span, j, hj, hnext, htoken, hspan, hrest⟩
  · rw [hnone, hnone']
    exact agrees_fault hf h
  · rw [hnext, htoken]
    cases t with
    | number raw =>
      simp only
      cases Binary64.read? raw.toList with
      | none =>
        rw [hspan]
        exact .error h.le
      | some value =>
        simp only [advance_bind _ (lt_limit_of_tokenAt? htoken), hspan, locate_bind _ hf]
        exact .ok ⟨rfl, hrest⟩
    | _ => exact agrees_fault hf h

theorem agrees_accessor (hf : p.Fits f) (h : p.Stands i n) (offset : Nat) :
    p.Agrees p.Same (f.accessor offset i) (p.accessor offset n) := by
  unfold Fence.accessor accessor
  rw [peek_bind, span_bind]
  rcases h.next? with ⟨hnone, hnone'⟩ | ⟨t, span, j, hj, hnext, htoken, hspan, hrest⟩
  · rw [hnone, hnone', if_neg (by simp)]
    exact .ok ⟨rfl, h⟩
  · rw [hnext, htoken, hspan]
    cases t with
    | dot =>
      simp only
      by_cases hoffset : span.start = offset
      · rw [if_pos hoffset, if_pos ⟨trivial, hoffset⟩, advance_bind _ (lt_limit_of_tokenAt? htoken), hspan]
        refine (agrees_identifierAt hf hrest span.stop).read ?_
        intro id k hk m hm
        exact .ok ⟨rfl, hm⟩
      · rw [if_neg hoffset, if_neg fun hdot => hoffset hdot.2]
        exact .ok ⟨rfl, h⟩
    | _ => exact .ok ⟨rfl, h⟩

theorem agrees_variantKey (hf : p.Fits f) (h : p.Stands i n) :
    p.Agrees p.Same (Fluent.variantKey f i) (p.variantKey n) := by
  unfold Fluent.variantKey variantKey
  rw [peek_bind, h.peek?]
  rcases p.tokenAt? n with _ | t
  · exact agrees_fault hf h
  · cases t with
    | identifier name =>
      refine (agrees_identifier hf h).read ?_
      intro id j hj m hm
      exact .ok ⟨rfl, hm⟩
    | number raw =>
      refine (agrees_number hf h).read ?_
      intro literal j hj m hm
      exact .ok ⟨rfl, hm⟩
    | _ => exact agrees_fault hf h

/-! ## Values -/

theorem agrees_required {x : Except Fault Unit} (h : n ≤ p.limit) {g : Unit → Except Fault β} {g' : Unit → Reader α}
    (hg : p.Agrees R (g ()) (g' () n)) : p.Agrees R (x >>= g) ((required x >>= g') n) := by
  cases x with
  | error x => exact .error h
  | ok => exact hg

theorem agrees_checkVariants (hf : p.Fits f) (h : p.Stands i n) (vs : List Variant) :
    p.Agrees (fun _ _ m => m = n) (Fluent.checkVariants f i vs) (p.checkVariants vs n) := by
  unfold Fluent.checkVariants checkVariants
  split
  · exact agrees_fault hf h
  · generalize vs.filter (·.isDefault) = defaults
    match defaults with
    | [] =>
      rw [h.offset hf]
      exact .error h.le
    | [_] => exact .ok rfl
    | _ :: _ :: _ => exact .error h.le

theorem agrees_closed (hf : p.Fits f) (h : p.Stands i n) (start : Nat) (e : Expression) {q : Input → Prop}
    (hq : ∀ j : Input, j.left < i.left → q j) :
    p.Agrees p.Same
      (do
        let (closing, ⟨j, hj⟩) ← f.expect .closeBrace .closeBrace i
        return ((⟨e, f.locate start closing.stop⟩, ⟨j, hq j hj⟩) : Placeable × Subtype q))
      (p.closed start e n) := by
  refine (agrees_expect hf h .closeBrace).read ?_
  intro closing j hj m hm
  rw [locate_bind _ hf]
  exact .ok ⟨rfl, hm⟩

mutual

-- the theorems follow the recursion of the grammar: in every call fewer tokens are left, and depth is left for them

/-- The functions of the grammar that call each other agree. The bound on the depth of calls is larger than what the
tokens that are left can ask for, so it is never reached. -/
theorem agrees_placeable (hf : p.Fits f) {i : Input} {n : Nat} (h : p.Stands i n) {d : Nat}
    (hd : 3 * i.left < d) :
    p.Agrees p.Same (Fluent.placeable f i) (p.placeable d n) := by
  obtain ⟨d, rfl⟩ := Nat.exists_eq_add_one_of_ne_zero (Nat.ne_zero_of_lt hd)
  rw [Fluent.placeable, placeable]
  refine (agrees_expect hf h .openBrace).read ?_
  intro opening i₁ h₁ n₁ hs₁
  refine (agrees_inline hf hs₁ (by omega)).read ?_
  intro e i₂ h₂ n₂ hs₂
  simp only [eat_bind]
  rcases hs₂.next? with ⟨hnone, hnone'⟩ | ⟨t, span, i₃, h₃, hnext, htoken, hspan, hs₃⟩
  · rw [hnone, hnone', if_neg (by simp)]
    exact agrees_required hs₂.le (agrees_closed hf hs₂ _ _ _)
  · rw [hnext, htoken]
    cases t with
    | arrow =>
      rw [if_pos rfl]
      refine agrees_required hs₃.le ?_
      refine (agrees_variants hf hs₃ (by omega)).read ?_
      intro vs i₄ h₄ n₄ hs₄
      refine (agrees_checkVariants hf hs₄ vs).bind ?_
      rintro _ _ _ rfl
      rw [previousEnd_bind _ hs₄ hf, locate_bind _ hf]
      exact agrees_closed hf hs₄ _ _ _
    | _ => exact agrees_required hs₂.le (agrees_closed hf hs₂ _ _ _)
termination_by 3 * i.left
decreasing_by all_goals omega

theorem agrees_inline (hf : p.Fits f) {i : Input} {n : Nat} (h : p.Stands i n) {d : Nat}
    (hd : 3 * i.left + 1 < d) :
    p.Agrees p.Same (Fluent.inline f i) (p.inline d n) := by
  obtain ⟨d, rfl⟩ := Nat.exists_eq_add_one_of_ne_zero (Nat.ne_zero_of_lt hd)
  rw [Fluent.inline, inline, peek_bind]
  rcases h.next? with ⟨hnone, hnone'⟩ | ⟨t, span, i₁, h₁, hnext, htoken, hspan, hs₁⟩
  · rw [hnone, hnone']
    exact agrees_fault hf h
  have hlt := lt_limit_of_tokenAt? htoken
  rw [hnext, htoken]
  cases t with
  | openBrace =>
    refine (agrees_placeable hf h (by omega)).read ?_
    intro inner j hj m hm
    exact .ok ⟨rfl, hm⟩
  | string raw =>
    have hraw : unescape? (span.start + 1) raw.toList 0 = some (Text.unescape (span.start + 1) raw.toList) :=
      unescape?_eq (span.start + 1) (Cursor.at_ofChars raw.toList)
    simp only [string, advance_bind _ hlt, hspan, hraw, checked_bind]
    cases Text.unescape (span.start + 1) raw.toList with
    | error bad => exact .error hs₁.le
    | ok value =>
      show p.Agrees p.Same _ ((p.locate span.start span.stop >>= _) (n + 1))
      rw [locate_bind _ hf]
      exact .ok ⟨rfl, hs₁⟩
  | unterminatedString raw =>
    simp only [span_bind, hspan]
    exact .error h.le
  | number raw =>
    refine (agrees_number hf h).read ?_
    intro literal j hj m hm
    exact .ok ⟨rfl, hm⟩
  | dollar =>
    simp only [advance_bind _ hlt, hspan]
    refine (agrees_identifierAt hf hs₁ (span.start + 1)).read ?_
    intro id i₂ h₂ n₂ hs₂
    rw [locate_bind _ hf]
    exact .ok ⟨rfl, hs₂⟩
  | minus =>
    -- the reference is a call of its own, and the sign that it reads makes up for it
    obtain ⟨d, rfl⟩ := Nat.exists_eq_add_one_of_ne_zero (show d ≠ 0 by omega)
    simp only
    rw [termReference, expect_bind htoken, hspan]
    refine (agrees_identifierAt hf hs₁ (span.start + 1)).read ?_
    intro id i₂ h₂ n₂ hs₂
    refine (agrees_accessor hf hs₂ id.location.span.stop).read ?_
    intro accessor i₃ h₃ n₃ hs₃
    simp only [peek_bind, ← hs₃.peek?]
    by_cases hparen : i₃.peek? = some .openParen
    · rw [if_pos hparen, if_pos hparen]
      refine (agrees_callArguments hf hs₃ (by omega)).read ?_
      intro arguments i₄ h₄ n₄ hs₄
      rw [previousEnd_bind _ hs₄ hf, locate_bind _ hf]
      exact .ok ⟨rfl, hs₄⟩
    · rw [if_neg hparen, if_neg hparen, previousEnd_bind _ hs₃ hf, locate_bind _ hf]
      exact .ok ⟨rfl, hs₃⟩
  | identifier name =>
    simp only [peekSecond_bind, ← hs₁.peek?]
    by_cases hparen : i₁.peek? = some .openParen
    · obtain ⟨d, rfl⟩ := Nat.exists_eq_add_one_of_ne_zero (show d ≠ 0 by omega)
      rw [if_pos hparen, if_pos hparen, functionReference, identifier_bind hf htoken, hspan]
      by_cases hname : isFunctionName name = true
      · simp only [hname, Bool.not_true, Bool.false_eq_true, if_false, if_true]
        refine (agrees_callArguments hf hs₁ (by omega)).read ?_
        intro arguments i₂ h₂ n₂ hs₂
        rw [locate_bind _ hf]
        exact .ok ⟨rfl, hs₂⟩
      · simp only [hname, Bool.not_false, Bool.false_eq_true, if_false, if_true]
        exact .error hs₁.le
    · rw [if_neg hparen, if_neg hparen, identifier_bind hf htoken, hspan]
      refine (agrees_accessor hf hs₁ span.stop).read ?_
      intro accessor i₂ h₂ n₂ hs₂
      rw [previousEnd_bind _ hs₂ hf, locate_bind _ hf]
      exact .ok ⟨rfl, hs₂⟩
  | _ => exact agrees_fault hf h
termination_by 3 * i.left + 1
decreasing_by all_goals omega

theorem agrees_callArguments (hf : p.Fits f) {i : Input} {n : Nat} (h : p.Stands i n) {d : Nat}
    (hd : 3 * i.left < d) :
    p.Agrees p.Same (Fluent.callArguments f i) (p.callArguments d n) := by
  obtain ⟨d, rfl⟩ := Nat.exists_eq_add_one_of_ne_zero (Nat.ne_zero_of_lt hd)
  rw [Fluent.callArguments, callArguments]
  refine (agrees_expect hf h .openParen).read ?_
  intro opening i₁ h₁ n₁ hs₁
  refine (agrees_positionalArguments hf hs₁ (by omega)).read ?_
  intro positional i₂ h₂ n₂ hs₂
  refine (agrees_namedArguments hf [] hs₂ (by omega)).bind ?_
  rintro ⟨named, closing, i₃, h₃⟩ _ n₃ ⟨rfl, hs₃⟩
  simp only [locate_bind _ hf]
  exact .ok ⟨rfl, hs₃⟩
termination_by 3 * i.left
decreasing_by all_goals omega

theorem agrees_positionalArguments (hf : p.Fits f) {i : Input} {n : Nat} (h : p.Stands i n) {d : Nat}
    (hd : 3 * i.left + 2 < d) :
    p.Agrees p.Same (Fluent.positionalArguments f i) (p.positionalArguments d n) := by
  obtain ⟨d, rfl⟩ := Nat.exists_eq_add_one_of_ne_zero (Nat.ne_zero_of_lt hd)
  rw [Fluent.positionalArguments, positionalArguments, eat_bind]
  split
  · rename_i marker rest hnext
    rcases h.next? with ⟨hnone, -⟩ | ⟨t, span, j, hj, hnext', htoken, -, hm⟩
    · rw [hnext] at hnone
      cases hnone
    · rw [hnext] at hnext'
      cases hnext'
      rw [if_pos htoken]
      exact .ok ⟨rfl, hm⟩
  · rename_i hother
    have hmarker : p.tokenAt? n ≠ some .endPositional := by
      intro hmarker
      rcases h.next? with ⟨-, hnone⟩ | ⟨t, span, j, hj, hnext, htoken, -, -⟩
      · rw [hmarker] at hnone
        cases hnone
      · rw [hmarker] at htoken
        cases htoken
        exact hother _ _ hnext
    rw [if_neg hmarker]
    refine (agrees_inline hf h (by omega)).read ?_
    intro e i₁ h₁ n₁ hs₁
    rw [peek_bind]
    rcases hs₁.next? with ⟨hnone, hnone'⟩ | ⟨t, span, i₂, h₂, hnext, htoken, hspan, hs₂⟩
    · simp only [hnone, hnone']
      exact agrees_fault hf hs₁
    · simp only [hnext, htoken]
      cases t with
      | comma =>
        simp only [advance_bind _ (lt_limit_of_tokenAt? htoken)]
        refine (agrees_positionalArguments hf hs₂ (by omega)).read ?_
        intro es i₃ h₃ n₃ hs₃
        exact .ok ⟨rfl, hs₃⟩
      | endPositional =>
        simp only [advance_bind _ (lt_limit_of_tokenAt? htoken)]
        exact .ok ⟨rfl, hs₂⟩
      | _ => exact agrees_fault hf hs₁
termination_by 3 * i.left + 2
decreasing_by all_goals omega

/-- Named arguments agree, and so does the span of the parenthesis that ends them. -/
theorem agrees_namedArguments (hf : p.Fits f) (seen : List String) {i : Input} {n : Nat} (h : p.Stands i n) {d : Nat}
    (hd : 3 * i.left < d) :
    p.Agrees (fun r a m => a = (r.1, r.2.1) ∧ p.Stands r.2.2.1 m) (Fluent.namedArguments f seen i)
      (p.namedArguments d seen n) := by
  obtain ⟨d, rfl⟩ := Nat.exists_eq_add_one_of_ne_zero (Nat.ne_zero_of_lt hd)
  rw [Fluent.namedArguments, namedArguments, peek_bind]
  rcases h.next? with ⟨hnone, hnone'⟩ | ⟨t, span, i₁, h₁, hnext, htoken, hspan, hs₁⟩
  · rw [hnone, hnone']
    exact agrees_fault hf h
  have hlt := lt_limit_of_tokenAt? htoken
  rw [hnext, htoken]
  cases t with
  | closeParen =>
    simp only [advance_bind _ hlt, hspan]
    exact .ok ⟨rfl, hs₁⟩
  | identifier name =>
    simp only [peekSecond_bind]
    rcases hs₁.next? with ⟨hnone, hnone'⟩ | ⟨t, colon, i₂, h₂, hnext₁, htoken₁, hspan₁, hs₂⟩
    · simp only [hnone, hnone']
      exact agrees_fault hf h
    simp only [hnext₁, htoken₁]
    cases t with
    | colon =>
      rw [if_pos rfl, identifier_bind hf htoken, advance_bind _ (lt_limit_of_tokenAt? htoken₁), hspan]
      refine (agrees_inline hf hs₂ (by omega)).read ?_
      intro value i₃ h₃ n₃ hs₃
      simp only
      by_cases hseen : seen.contains name = true
      · simp only [hseen, if_true]
        exact .error hs₃.le
      · simp only [hseen, Bool.false_eq_true, if_false, locate_bind _ hf, peek_bind]
        rcases hs₃.next? with ⟨hnone, hnone'⟩ | ⟨t, span₃, i₄, h₄, hnext₂, htoken₂, hspan₂, hs₄⟩
        · simp only [hnone, hnone']
          exact agrees_fault hf hs₃
        simp only [hnext₂, htoken₂]
        cases t with
        | comma =>
          simp only [advance_bind _ (lt_limit_of_tokenAt? htoken₂)]
          refine (agrees_namedArguments hf (name :: seen) hs₄ (by omega)).bind ?_
          rintro ⟨arguments, closing, i₅, h₅⟩ _ n₅ ⟨rfl, hs₅⟩
          exact .ok ⟨rfl, hs₅⟩
        | closeParen =>
          simp only [advance_bind _ (lt_limit_of_tokenAt? htoken₂), hspan₂]
          exact .ok ⟨rfl, hs₄⟩
        | _ => exact agrees_fault hf hs₃
    | _ => exact agrees_fault hf h
  | _ => exact agrees_fault hf h
termination_by 3 * i.left
decreasing_by all_goals omega

theorem agrees_variants (hf : p.Fits f) {i : Input} {n : Nat} (h : p.Stands i n) {d : Nat}
    (hd : 3 * i.left + 1 < d) :
    p.Agrees p.Same (Fluent.variants f i) (p.variants d n) := by
  obtain ⟨d, rfl⟩ := Nat.exists_eq_add_one_of_ne_zero (Nat.ne_zero_of_lt hd)
  rw [Fluent.variants, variants, peek_bind, h.peek?]
  by_cases hvariant : p.tokenAt? n = some .star ∨ p.tokenAt? n = some .openBracket
  · rw [if_pos hvariant, if_pos hvariant]
    refine (agrees_variant hf h (by omega)).read ?_
    intro v i₁ h₁ n₁ hs₁
    refine (agrees_variants hf hs₁ (by omega)).read ?_
    intro vs i₂ h₂ n₂ hs₂
    exact .ok ⟨rfl, hs₂⟩
  · rw [if_neg hvariant, if_neg hvariant]
    exact .ok ⟨rfl, h⟩
termination_by 3 * i.left + 1
decreasing_by all_goals omega

theorem agrees_variant (hf : p.Fits f) {i : Input} {n : Nat} (h : p.Stands i n) {d : Nat}
    (hd : 3 * i.left < d) :
    p.Agrees p.Same (Fluent.variant f i) (p.variant d n) := by
  obtain ⟨d, rfl⟩ := Nat.exists_eq_add_one_of_ne_zero (Nat.ne_zero_of_lt hd)
  rw [Fluent.variant, variant, span_bind]
  split
  rename_i isDefault i₁ h₁ hstar
  obtain ⟨n₁, hs₁, -, heat⟩ := h.takes (Input.takes_star hstar) (α := Variant)
  rw [heat]
  refine (agrees_expect hf hs₁ .openBracket).read ?_
  intro _ i₂ h₂ n₂ hs₂
  refine (agrees_variantKey hf hs₂).read ?_
  intro key i₃ h₃ n₃ hs₃
  refine (agrees_expect hf hs₃ .closeBracket).read ?_
  intro _ i₄ h₄ n₄ hs₄
  rw [span_bind]
  refine (agrees_pattern? hf hs₄ (by omega)).read ?_
  intro value? i₅ h₅ n₅ hs₅
  cases value? with
  | none =>
    simp only [hs₄.offset hf]
    exact .error hs₅.le
  | some value =>
    simp only [previousEnd_bind _ hs₅ hf, locate_bind _ hf, h.offset hf]
    exact .ok ⟨rfl, hs₅⟩
termination_by 3 * i.left
decreasing_by all_goals omega

theorem agrees_pattern? (hf : p.Fits f) {i : Input} {n : Nat} (h : p.Stands i n) {d : Nat}
    (hd : 3 * i.left < d) :
    p.Agrees p.Same (Fluent.pattern? f i) (p.pattern? d n) := by
  obtain ⟨d, rfl⟩ := Nat.exists_eq_add_one_of_ne_zero (Nat.ne_zero_of_lt hd)
  rw [Fluent.pattern?, pattern?, peek_bind]
  rcases h.next? with ⟨hnone, hnone'⟩ | ⟨t, span, i₁, h₁, hnext, htoken, hspan, hs₁⟩
  · rw [hnone, hnone']
    exact agrees_fault hf h
  have hlt := lt_limit_of_tokenAt? htoken
  rw [hnext, htoken]
  cases t with
  | patternSkip =>
    simp only [advance_bind _ hlt]
    exact .ok ⟨rfl, hs₁⟩
  | patternStart =>
    simp only [advance_bind _ hlt, hspan]
    refine (agrees_patternElements hf hs₁ (by omega)).read ?_
    intro elements i₂ h₂ n₂ hs₂
    simp only
    cases Location.boundingBox? (elements.map (·.location)) with
    | none => exact .error hs₂.le
    | some location => exact .ok ⟨rfl, hs₂⟩
  | _ => exact agrees_fault hf h
termination_by 3 * i.left
decreasing_by all_goals omega

theorem agrees_patternElements (hf : p.Fits f) {i : Input} {n : Nat} (h : p.Stands i n) {d : Nat}
    (hd : 3 * i.left + 1 < d) :
    p.Agrees p.Same (Fluent.patternElements f i) (p.patternElements d n) := by
  obtain ⟨d, rfl⟩ := Nat.exists_eq_add_one_of_ne_zero (Nat.ne_zero_of_lt hd)
  rw [Fluent.patternElements, patternElements, peek_bind]
  rcases h.next? with ⟨hnone, hnone'⟩ | ⟨t, span, i₁, h₁, hnext, htoken, hspan, hs₁⟩
  · rw [hnone, hnone']
    exact agrees_fault hf h
  have hlt := lt_limit_of_tokenAt? htoken
  rw [hnext, htoken]
  cases t with
  | pureText text =>
    simp only [advance_bind _ hlt, hspan, locate_bind _ hf]
    refine (agrees_patternElements hf hs₁ (by omega)).read ?_
    intro es i₂ h₂ n₂ hs₂
    exact .ok ⟨rfl, hs₂⟩
  | openBrace =>
    refine (agrees_placeable hf h (by omega)).read ?_
    intro inner i₁ h₁ n₁ hs₁
    refine (agrees_patternElements hf hs₁ (by omega)).read ?_
    intro es i₂ h₂ n₂ hs₂
    exact .ok ⟨rfl, hs₂⟩
  | patternEnd =>
    simp only [advance_bind _ hlt]
    exact .ok ⟨rfl, hs₁⟩
  | _ => exact agrees_fault hf h
termination_by 3 * i.left + 1
decreasing_by all_goals omega

end

/-! ## Entries -/

/-- The bound on the depth of calls is larger than what the tokens that are left can ask for. -/
theorem Stands.left_lt_depth (h : p.Stands i n) : 3 * i.left < p.depth := by
  have hle : i.left ≤ p.tokens.length := by
    rw [Input.left, h.lexemes, List.length_drop, List.length_take]
    omega
  rw [depth]
  omega

theorem agrees_oneAttribute (hf : p.Fits f) (h : p.Stands i n) :
    p.Agrees p.Same (Fluent.oneAttribute f i) (p.oneAttribute n) := by
  unfold Fluent.oneAttribute oneAttribute
  refine (agrees_expect hf h .dot).read ?_
  intro dot i₁ h₁ n₁ hs₁
  refine (agrees_identifier hf hs₁).read ?_
  intro id i₂ h₂ n₂ hs₂
  refine (agrees_expect hf hs₂ .equals).read ?_
  intro _ i₃ h₃ n₃ hs₃
  rw [span_bind]
  refine (agrees_pattern? hf hs₃ hs₃.left_lt_depth).read ?_
  intro value? i₄ h₄ n₄ hs₄
  cases value? with
  | none =>
    simp only [hs₃.offset hf]
    exact .error hs₄.le
  | some value =>
    simp only [previousEnd_bind _ hs₄ hf, locate_bind _ hf]
    exact .ok ⟨rfl, hs₄⟩

/-- Where fewer tokens are left, the index stands further on. -/
theorem Stands.lt (h : p.Stands i n) {j : Input} {m : Nat} (hj : p.Stands j m) (hlimit : p.limit ≤ p.tokens.length)
    (hleft : j.left < i.left) : n < m := by
  have hcount (k : Input) (l : Nat) (hk : p.Stands k l) : k.left = p.limit - l := by
    rw [Input.left, hk.lexemes, List.length_drop, List.length_take, Nat.min_eq_left hlimit]
  rw [hcount i n h, hcount j m hj] at hleft
  omega

/-- Attributes agree, and the bound on their number is larger than what the tokens that are left can ask for. -/
theorem agrees_attributes (hf : p.Fits f) (h : p.Stands i n) {d : Nat} (hd : i.left < d) :
    p.Agrees (fun r a m => a = r.1 ∧ p.Stands r.2 m ∧ n ≤ m) (Fluent.attributes f i) (p.attributes d n) := by
  fun_induction Fluent.attributes f i generalizing n d with
  | case1 i hdot ih =>
    obtain ⟨d, rfl⟩ := Nat.exists_eq_add_one_of_ne_zero (Nat.ne_zero_of_lt hd)
    rw [attributes, peek_bind, ← h.peek?, if_pos hdot]
    refine (agrees_oneAttribute hf h).read ?_
    intro a i₁ h₁ n₁ hs₁
    have hlt := h.lt hs₁ hf.limit_le h₁
    refine (ih i₁ h₁ hs₁ (by omega)).bind ?_
    rintro ⟨as, i₂⟩ _ n₂ ⟨rfl, hs₂, hle⟩
    exact .ok ⟨rfl, hs₂, by omega⟩
  | case2 i hdot =>
    obtain ⟨d, rfl⟩ := Nat.exists_eq_add_one_of_ne_zero (Nat.ne_zero_of_lt hd)
    rw [attributes, peek_bind, ← h.peek?, if_neg hdot]
    exact .ok ⟨rfl, h, Nat.le_refl n⟩

/-- **An entry** that ends at the next token with which something else begins is read alike with checks and without, and
no check fails on the way. -/
theorem agrees_entry (hf : p.Fits f) (h : p.Stands i n)
    (hinside : ∀ m, n < m → m < p.limit → p.isFence? m = some false) (hlimit : p.isFence? p.limit = some true) :
    p.Agrees (fun b a m => a = b ∧ m = p.limit) (Fluent.entry f i) (p.entry n) := by
  unfold Fluent.entry entry
  rw [span_bind]
  split
  rename_i isTerm i₁ hminus
  obtain ⟨n₁, hs₁, hle, heat⟩ := h.takes (Input.takes_minus hminus) (α := Entry)
  rw [heat]
  refine (agrees_identifier hf hs₁).read ?_
  intro id i₂ h₂ n₂ hs₂
  refine (agrees_expect hf hs₂ .equals).read ?_
  intro _ i₃ h₃ n₃ hs₃
  rw [span_bind]
  refine (agrees_pattern? hf hs₃ hs₃.left_lt_depth).read ?_
  intro value? i₄ h₄ n₄ hs₄
  have hleft := hs₄.left_lt_depth
  refine (agrees_attributes hf hs₄ (by omega)).bind ?_
  rintro ⟨attributes, i₅⟩ _ n₅ ⟨rfl, hs₅, hlast⟩
  have hbehind : n < n₅ := by
    have := hs₁.lt hs₂ hf.limit_le h₂
    have := hs₂.lt hs₃ hf.limit_le h₃
    have := hs₃.lt hs₄ hf.limit_le h₄
    omega
  show p.Agrees _ _ ((checked (p.isFence? n₅) >>= _) n₅)
  cases hnil : i₅.lexemes with
  | cons l ls =>
    have hlt := (hs₅.getElem?_of_cons hnil).1
    rw [hinside n₅ hbehind hlt, checked_bind]
    simp only [hnil, List.isEmpty_cons, Bool.not_false, if_true, Bool.false_eq_true, if_false]
    exact agrees_fault hf hs₅
  | nil =>
    obtain rfl := hs₅.eq_limit hf.limit_le hnil
    rw [hlimit, checked_bind]
    simp only [hnil, List.isEmpty_nil, Bool.not_true, Bool.false_eq_true, if_false, if_true, previousEnd_bind _ hs₅ hf,
      locate_bind _ hf, h.offset hf, hs₃.offset hf]
    cases isTerm with
    | false =>
      cases value? with
      | none =>
        simp only
        split
        · exact .error (Nat.le_refl _)
        · exact .ok ⟨rfl, rfl⟩
      | some value => exact .ok ⟨rfl, rfl⟩
    | true =>
      cases value? with
      | none => exact .error (Nat.le_refl _)
      | some value => exact .ok ⟨rfl, rfl⟩

end Parser

end Checked

end Fluent
