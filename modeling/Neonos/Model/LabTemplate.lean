import Mathlib
import Neonos.LineSearch

/-! The student templates of `tools/lab.py`: `remove_body` for a Rust source. Its
regular expressions all begin with `^` and are matched line by line. Which
letters beyond ASCII are alphanumeric is the interpreter's table. -/
namespace Neonos.Lab
open LineSearch

/-- A name that can follow `fn` on a line. -/
structure FunctionName where
  text : Text
  oneLine : '\n' ∉ text

inductive TemplateError where
  | notOne (name : Text)
  | noBrace
  | missingClose (name : Text)
  deriving DecidableEq

def TemplateError.message : TemplateError → String
  | .notOne name => "expected one Rust function " ++ String.ofList name
  | .noBrace => "substring not found"
  | .missingClose name => "missing closing brace for " ++ String.ofList name

/-- `str.isspace`, which is `\s` too. -/
def isSpace (c : Char) : Bool :=
  c.toNat ∈ [0x20, 0x85, 0xa0, 0x1680, 0x2028, 0x2029, 0x202f, 0x205f, 0x3000] ||
    (0x09 ≤ c.toNat && c.toNat ≤ 0x0d) || (0x1c ≤ c.toNat && c.toNat ≤ 0x1f) ||
    (0x2000 ≤ c.toNat && c.toNat ≤ 0x200a)

/-- Where `str.splitlines` ends a line, apart from `\r\n`. -/
def endsLine (c : Char) : Bool :=
  c.toNat ∈ [0x1c, 0x1d, 0x1e, 0x85, 0x2028, 0x2029] || (0x0a ≤ c.toNat && c.toNat ≤ 0x0d)

/-- `str.splitlines`, with the line that is being read. -/
def splitlines (line : Text) : Text → List Text
  | [] => if line = [] then [] else [line]
  | '\r' :: '\n' :: text => line :: splitlines [] text
  | c :: text => if endsLine c then line :: splitlines [] text else splitlines (line ++ [c]) text

section pattern
variable (isalnum : Char → Bool) (name : FunctionName)

/-- `\w`. -/
def isWord (c : Char) : Bool := isalnum c || c = '_'

/-- `fn NAME\b`. -/
def functionAt (text : Text) : Bool :=
  match text.dropPrefix? ("fn ".toList ++ name.text) with
  | some rest => isWord isalnum (name.text.getLast?.getD ' ') != rest.head?.any (isWord isalnum)
  | none => false

/-- `(?:extern "C" )?` before the function. -/
def externAt (text : Text) : Bool :=
  (text.dropPrefix? "extern \"C\" ".toList).any (functionAt isalnum name) || functionAt isalnum name text

/-- `[^\n]*?\) `, the rest of a restricted visibility, before the function. -/
def visibilityAt : Text → Bool
  | [] => false
  | c :: text => (c = ')' && (text.dropPrefix? [' ']).any (externAt isalnum name)) ||
      (c ≠ '\n' && visibilityAt text)

/-- The pattern for a function's signature, with its indentation. -/
def signatureAt (text : Text) : Option Text :=
  let rest := text.dropWhile (· = ' ')
  if (rest.dropPrefix? "pub ".toList).any (externAt isalnum name) ||
      (rest.dropPrefix? "pub(".toList).any (visibilityAt isalnum name) || externAt isalnum name rest then
    some (text.takeWhile (· = ' '))
  else none

end pattern

/-- Nothing but white space up to the end of the line. -/
def blank (text : Text) : Bool := (text.takeWhile (· ≠ '\n')).all isSpace

/-- The pattern for a closing brace at this indentation. -/
def closesAt (indent text : Text) : Option Unit :=
  if (text.dropPrefix? (indent ++ ['}'])).any blank then some () else none

/-- The lines of the replacement, each four deeper than the signature. -/
def indented (indent replacement : Text) : Text :=
  ['\n'].intercalate ((splitlines [] replacement).map fun line =>
    indent ++ "    ".toList ++ line.dropWhile isSpace)

/-- The only signature of the function. -/
def onlySignature (isalnum : Char → Bool) (source : Text) (name : FunctionName) : Except TemplateError (Place Text) :=
  match places (signatureAt isalnum name) [] source with
  | [found] => .ok found
  | _ => .error (.notOne name.text)

/-- The source from `begin` on, at the first brace after the signature's start. -/
def fromBrace (found : Place Text) : Except TemplateError Text :=
  match found.text.dropWhile (· ≠ '{') with
  | [] => .error .noBrace
  | brace :: rest => .ok (brace :: rest)

/-- The source from `close` on. -/
def fromClose (name : FunctionName) (indent fromBegin : Text) : Except TemplateError Text :=
  match (places (closesAt indent) [] fromBegin).head? with
  | none => .error (.missingClose name.text)
  | some close => .ok close.text

/-- `remove_body` of a Rust source. -/
def removeBody (isalnum : Char → Bool) (source : Text) (name : FunctionName) (replacement : Text) :
    Except TemplateError Text := do
  let found ← onlySignature isalnum source name
  let fromBegin ← fromBrace found
  let rest ← fromClose name found.value fromBegin
  .ok (found.before ++ found.text.takeWhile (· ≠ '{') ++ fromBegin.take 1 ++
    '\n' :: (indented found.value replacement ++ '\n' :: rest))

end Neonos.Lab
