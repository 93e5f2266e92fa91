import Fluent.Tree

/-!
# Source form

Trees written the way they could stand in a source: text as it is, placeables with one space inside
their braces, arguments with one space after each comma.
-/

namespace Fluent

/-- An identifier behind a dot, if there is one. -/
def displayAccessor : Option Identifier → String
  | none => ""
  | some id => "." ++ id.name

mutual

def Expression.display : Expression → String
  | .string _ raw _ => "\"" ++ raw ++ "\""
  | .number literal => literal.raw
  | .variableRef id _ => "$" ++ id.name
  | .messageRef id accessor _ => id.name ++ displayAccessor accessor
  | .termRef id accessor arguments _ =>
    "-" ++ id.name ++ displayAccessor accessor
      ++ match arguments with
        | none => ""
        | some a => a.display
  | .functionRef id arguments _ => id.name ++ arguments.display
  | .select selector variants _ => selector.display ++ " ->" ++ displayVariants variants
  | .placeable inner => inner.display

def Placeable.display : Placeable → String
  | ⟨e, _⟩ => r"{ " ++ e.display ++ r" }"

def CallArguments.display : CallArguments → String
  | ⟨positional, named, _⟩ =>
    "(" ++ ", ".intercalate (displayExpressions positional ++ displayArguments named) ++ ")"

def displayExpressions : List Expression → List String
  | [] => []
  | e :: es => e.display :: displayExpressions es

def displayArguments : List NamedArgument → List String
  | [] => []
  | a :: as => a.display :: displayArguments as

def NamedArgument.display : NamedArgument → String
  | ⟨name, value, _⟩ => name.name ++ ": " ++ value.display

def displayVariants : List Variant → String
  | [] => ""
  | v :: vs => " " ++ v.display ++ displayVariants vs

def Variant.display : Variant → String
  | ⟨key, value, isDefault, _⟩ =>
    (if isDefault then "*" else "") ++ "[" ++ key.name ++ "] " ++ value.display

def Pattern.display : Pattern → String
  | ⟨elements, _⟩ => displayElements elements

def displayElements : List PatternElement → String
  | [] => ""
  | e :: es => e.display ++ displayElements es

def PatternElement.display : PatternElement → String
  | .text chunk => chunk.value
  | .placeable inner => inner.display

end

/-! ## Characters

What the displayed texts consist of, in the pieces that are read one after the other. -/

variable {id : Identifier} {accessor : Option Identifier} {a : CallArguments} {location : Location}

theorem toList_displayAccessor_none : (displayAccessor none).toList = [] := rfl

theorem toList_displayAccessor_some : (displayAccessor (some id)).toList = ['.'] ++ id.name.toList := String.toList_append

theorem Expression.toList_display_string {value raw : String} :
    (Expression.string value raw location).display.toList = '"' :: (raw.toList ++ ['"']) := by
  change ("\"" ++ raw ++ "\"").toList = _
  simp [String.toList_append]

theorem Expression.toList_display_variableRef :
    (Expression.variableRef id location).display.toList = ['$'] ++ id.name.toList := String.toList_append

theorem Expression.toList_display_messageRef :
    (Expression.messageRef id accessor location).display.toList = id.name.toList ++ (displayAccessor accessor).toList :=
  String.toList_append

theorem Expression.toList_display_termRef :
    (Expression.termRef id accessor none location).display.toList =
      ['-'] ++ (id.name.toList ++ (displayAccessor accessor).toList) := by
  change ("-" ++ id.name ++ displayAccessor accessor ++ "").toList = _
  simp [String.toList_append]

theorem Expression.toList_display_termCall :
    (Expression.termRef id accessor (some a) location).display.toList =
      (['-'] ++ (id.name.toList ++ (displayAccessor accessor).toList)) ++ a.display.toList := by
  change ("-" ++ id.name ++ displayAccessor accessor ++ a.display).toList = _
  simp [String.toList_append]

theorem Expression.toList_display_functionRef :
    (Expression.functionRef id a location).display.toList = id.name.toList ++ a.display.toList := String.toList_append

theorem Placeable.toList_display {e : Expression} :
    (Placeable.mk e location).display.toList =
      ['{'] ++ ([' '] ++ (e.display.toList ++ ([' '] ++ ['}']))) := by
  change (r"{ " ++ e.display ++ r" }").toList = _
  simp [String.toList_append]

theorem NamedArgument.toList_display {value : Expression} :
    (NamedArgument.mk id value location).display.toList =
      id.name.toList ++ ([':'] ++ ([' '] ++ value.display.toList)) := by
  change (id.name ++ ": " ++ value.display).toList = _
  simp [String.toList_append]

theorem displayExpressions_eq_map (es : List Expression) : displayExpressions es = es.map Expression.display := by
  induction es with
  | nil => rfl
  | cons e es ih => exact congrArg (e.display :: ·) ih

theorem displayArguments_eq_map (as : List NamedArgument) : displayArguments as = as.map NamedArgument.display := by
  induction as with
  | nil => rfl
  | cons a as ih => exact congrArg (a.display :: ·) ih

theorem toList_displayElements_cons {e : PatternElement} {es : List PatternElement} :
    (displayElements (e :: es)).toList = e.display.toList ++ (displayElements es).toList := String.toList_append

end Fluent
