import Fluent.Grammar.Input

/-!
# The grammar of values

White space is gone from the tokens, so what is left is small:

    pattern    = PatternStart (text | placeable)+ PatternEnd
    placeable  = "{" (inline | inline "->" variant+) "}"
    variant    = "*"? "[" (identifier | number) "]" pattern
    inline     = string | number | "$" id | "-" id ("." id)? arguments? | FUNCTION arguments
               | id ("." id)? | placeable
    arguments  = "(" (inline ",")* EndPositional (id ":" inline ",")* ")"

A comma may be missing in front of what ends a list. The signs `$`, `-` and `.` touch the identifier
that they belong to. Each function returns what is left with a proof that it is shorter.
-/

namespace Fluent

/-- Function names are written in capitals. -/
def isFunctionName (name : String) : Bool :=
  match name.toList with
  | [] => false
  | c :: cs => c.isUpper && cs.all fun c => c.isUpper || c.isDigit || c == '_' || c == '-'

/-- Variants of a select expression: there are some, and exactly one is the default. -/
def checkVariants (f : Fence) (i : Input) (variants : List Variant) : Except Fault Unit :=
  if variants.isEmpty then .error (f.fault i .variants)
  else
    match variants.filter (·.isDefault) with
    | [] => .error (.unexpected (f.offset i) .defaultVariant .noDefault)
    | [_] => .ok ()
    | _ :: second :: _ => .error (.unexpected second.location.span.start .oneDefaultVariant .secondDefault)

/-- What can stand before the arrow of a select expression. -/
def checkSelector (e : Expression) : Except Fault Unit :=
  if e.isSelector then .ok ()
  else .error (.unexpected e.location.span.start .selector (.kind e.describe))

/-- The attribute of a term has no place in a text. -/
def checkPlaced : Expression → Except Fault Unit
  | .termRef _ (some _) _ location =>
    .error (.unexpected location.span.start .termAsValue .termAttribute)
  | _ => .ok ()

/-- The key of a variant. -/
def variantKey (f : Fence) (i : Input) : Except Fault (VariantKey × Rest i) :=
  match i.peek? with
  | some (.identifier _) => (f.identifier .variantKey i).map fun (id, rest) => (.identifier id, rest)
  | some (.number _) => (f.number i .variantKey).map fun (n, rest) => (.number n, rest)
  | _ => .error (f.fault i .variantKey)

mutual

/-- A placeable, braces and all. -/
def placeable (f : Fence) (i : Input) : Except Fault (Placeable × Rest i) := do
  let (opening, ⟨i₁, h₁⟩) ← f.expect .openBrace .openBrace i
  let (e, ⟨i₂, h₂⟩) ← inline f i₁
  match i₂.next? with
  | some (⟨.arrow, _⟩, ⟨i₃, h₃⟩) =>
    checkSelector e
    let (variants, ⟨i₄, h₄⟩) ← variants f i₃
    checkVariants f i₄ variants
    let select := Expression.select e variants (f.locate e.location.span.start i₄.readTo)
    let (closing, ⟨i₅, h₅⟩) ← f.expect .closeBrace .closeBrace i₄
    return (⟨select, f.locate opening.start closing.stop⟩, ⟨i₅, by omega⟩)
  | _ =>
    checkPlaced e
    let (closing, ⟨i₃, h₃⟩) ← f.expect .closeBrace .closeBrace i₂
    return (⟨e, f.locate opening.start closing.stop⟩, ⟨i₃, by omega⟩)
termination_by 3 * i.left

/-- An expression other than a select expression. -/
def inline (f : Fence) (i : Input) : Except Fault (Expression × Rest i) :=
  match i.next? with
  | some (⟨.openBrace, _⟩, _) => do
    let (inner, rest) ← placeable f i
    return (.placeable inner, rest)
  | some (⟨.string raw, span⟩, rest) =>
    match Text.unescape (span.start + 1) raw.toList with
    | .ok value => .ok (.string (String.ofList value) raw (f.lines.locate span), rest)
    | .error e => .error (.ofBadEscape e)
  | some (⟨.unterminatedString _, span⟩, _) => .error (.unterminatedString span)
  | some (⟨.number _, _⟩, _) => do
    let (literal, rest) ← f.number i .number
    return (.number literal, rest)
  | some (⟨.dollar, span⟩, ⟨i₁, h₁⟩) => do
    let (id, ⟨i₂, h₂⟩) ← f.identifierAt (span.start + 1) .variableName i₁
    return (.variableRef id (f.locate span.start id.location.span.stop), ⟨i₂, by omega⟩)
  | some (⟨.minus, span⟩, ⟨i₁, h₁⟩) => do
    let (id, ⟨i₂, h₂⟩) ← f.identifierAt (span.start + 1) .termName i₁
    let (accessor, ⟨i₃, h₃⟩) ← f.accessor id.location.span.stop i₂
    if i₃.peek? = some .openParen then
      let (arguments, ⟨i₄, h₄⟩) ← callArguments f i₃
      return (.termRef id accessor (some arguments) (f.locate span.start i₄.readTo), ⟨i₄, by omega⟩)
    else
      return (.termRef id accessor none (f.locate span.start i₃.readTo), ⟨i₃, by omega⟩)
  | some (⟨.identifier name, span⟩, ⟨i₁, h₁⟩) =>
    let id : Identifier := ⟨name, f.lines.locate span⟩
    if i₁.peek? = some .openParen then do
      if !isFunctionName name then throw (.unexpected span.start .functionName (.raw name))
      let (arguments, ⟨i₂, h₂⟩) ← callArguments f i₁
      return (.functionRef id arguments (f.locate span.start arguments.location.span.stop),
        ⟨i₂, by omega⟩)
    else do
      let (accessor, ⟨i₂, h₂⟩) ← f.accessor span.stop i₁
      return (.messageRef id accessor (f.locate span.start i₂.readTo), ⟨i₂, by omega⟩)
  | _ => .error (f.fault i .expression)
termination_by 3 * i.left + 1

/-- The arguments of a call, parentheses and all. -/
def callArguments (f : Fence) (i : Input) : Except Fault (CallArguments × Rest i) := do
  let (opening, ⟨i₁, h₁⟩) ← f.expect .openParen .openParen i
  let (positional, ⟨i₂, h₂⟩) ← positionalArguments f i₁
  let (named, closing, ⟨i₃, h₃⟩) ← namedArguments f [] i₂
  return (⟨positional, named, f.locate opening.start closing.stop⟩, ⟨i₃, by omega⟩)
termination_by 3 * i.left

/-- Positional arguments, and the marker that ends them. -/
def positionalArguments (f : Fence) (i : Input) : Except Fault (List Expression × Rest i) :=
  match i.next? with
  | some (⟨.endPositional, _⟩, rest) => .ok ([], rest)
  | _ => do
    let (e, ⟨i₁, h₁⟩) ← inline f i
    match i₁.next? with
    | some (⟨.comma, _⟩, ⟨i₂, h₂⟩) =>
      let (es, ⟨i₃, h₃⟩) ← positionalArguments f i₂
      return (e :: es, ⟨i₃, by omega⟩)
    | some (⟨.endPositional, _⟩, ⟨i₂, h₂⟩) => return ([e], ⟨i₂, by omega⟩)
    | _ => throw (f.fault i₁ .argumentEnd)
termination_by 3 * i.left + 2

/-- Named arguments after those in `seen`, and the parenthesis that ends them. -/
def namedArguments (f : Fence) (seen : List String) (i : Input) :
    Except Fault (List NamedArgument × Span × Rest i) :=
  match i.next? with
  | some (⟨.closeParen, span⟩, rest) => .ok ([], span, rest)
  | some (⟨.identifier name, span⟩, ⟨i₁, h₁⟩) =>
    match i₁.next? with
    | some (⟨.colon, _⟩, ⟨i₂, h₂⟩) => do
      let (value, ⟨i₃, h₃⟩) ← inline f i₂
      if seen.contains name then
        throw (.unexpected span.start .uniqueArgument (.repeatedArgument name))
      let argument : NamedArgument :=
        ⟨⟨name, f.lines.locate span⟩, value, f.locate span.start value.location.span.stop⟩
      match i₃.next? with
      | some (⟨.comma, _⟩, ⟨i₄, h₄⟩) =>
        let (arguments, closing, ⟨i₅, h₅⟩) ← namedArguments f (name :: seen) i₄
        return (argument :: arguments, closing, ⟨i₅, by omega⟩)
      | some (⟨.closeParen, closing⟩, ⟨i₄, h₄⟩) => return ([argument], closing, ⟨i₄, by omega⟩)
      | _ => throw (f.fault i₃ .argumentEnd)
    | _ => .error (f.fault i .namedArgument)
  | some _ => .error (f.fault i .namedArgument)
  | none => .error (f.fault i .closeParen)
termination_by 3 * i.left

/-- Variants, as long as there are any. -/
def variants (f : Fence) (i : Input) :
    Except Fault (List Variant × { j : Input // j.left ≤ i.left }) :=
  if i.peek? = some .star ∨ i.peek? = some .openBracket then do
    let (v, ⟨i₁, h₁⟩) ← variant f i
    let (vs, ⟨i₂, h₂⟩) ← variants f i₁
    return (v :: vs, ⟨i₂, by omega⟩)
  else .ok ([], ⟨i, Nat.le_refl _⟩)
termination_by 3 * i.left + 1

/-- A variant: its key in brackets, and its value. -/
def variant (f : Fence) (i : Input) : Except Fault (Variant × Rest i) := do
  let (isDefault, ⟨i₁, h₁⟩) : Bool × { j : Input // j.left ≤ i.left } :=
    match i.next? with
    | some (⟨.star, _⟩, ⟨j, hj⟩) => (true, ⟨j, Nat.le_of_lt hj⟩)
    | _ => (false, ⟨i, Nat.le_refl _⟩)
  let (_, ⟨i₂, h₂⟩) ← f.expect .openBracket .openBracket i₁
  let (key, ⟨i₃, h₃⟩) ← variantKey f i₂
  let (_, ⟨i₄, h₄⟩) ← f.expect .closeBracket .closeBracket i₃
  let (value?, ⟨i₅, h₅⟩) ← pattern? f i₄
  match value? with
  | none => throw (.unexpected (f.offset i₄) .variantValue .nothing)
  | some value =>
    return (⟨key, value, isDefault, f.locate (f.offset i) i₅.readTo⟩, ⟨i₅, by omega⟩)
termination_by 3 * i.left

/-- A pattern, or the mark of a missing one. -/
def pattern? (f : Fence) (i : Input) : Except Fault (Option Pattern × Rest i) :=
  match i.next? with
  | some (⟨.patternSkip, _⟩, rest) => .ok (none, rest)
  | some (⟨.patternStart, span⟩, ⟨i₁, h₁⟩) => do
    let (elements, ⟨i₂, h₂⟩) ← patternElements f i₁
    match Location.boundingBox? (elements.map (·.location)) with
    | none => throw (.unexpected span.start .value .nothing)
    | some location => return (some ⟨elements, location⟩, ⟨i₂, by omega⟩)
  | _ => .error (f.fault i .value)
termination_by 3 * i.left

/-- The elements of a pattern, and the marker that ends it. -/
def patternElements (f : Fence) (i : Input) : Except Fault (List PatternElement × Rest i) :=
  match i.next? with
  | some (⟨.pureText text, span⟩, ⟨i₁, h₁⟩) => do
    let (es, ⟨i₂, h₂⟩) ← patternElements f i₁
    return (.text ⟨text, f.lines.locate span⟩ :: es, ⟨i₂, by omega⟩)
  | some (⟨.openBrace, _⟩, _) => do
    let (inner, ⟨i₁, h₁⟩) ← placeable f i
    let (es, ⟨i₂, h₂⟩) ← patternElements f i₁
    return (.placeable inner :: es, ⟨i₂, by omega⟩)
  | some (⟨.patternEnd, _⟩, rest) => .ok ([], rest)
  | _ => .error (f.fault i .patternPart)
termination_by 3 * i.left + 1

end

end Fluent
