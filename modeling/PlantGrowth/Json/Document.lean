import PlantGrowth.Decimal.Text

/-!
# Writing JSON text

A document is written on one line without blanks (`compact`), or with one line for
every element and member, indented by two blanks a level (`pretty`).
-/

namespace PlantGrowth.Json

/-- Value to be written. Names of members hold no character that needs an escape. -/
inductive Document where
  | null
  | boolean (b : Bool)
  | natural (n : Nat)
  /-- Single-precision number; `null` if it is not finite. -/
  | scalar (x : Scalar)
  | array (elements : List Document)
  | object (members : List (String × Document))

namespace Document

/-- Document of a value that may be missing. -/
def ofOption {α : Type} (write : α → Document) : Option α → Document
  | none => null
  | some a => write a

def ofPair (p : Scalar × Scalar) : Document := array [scalar p.1, scalar p.2]

def ofQuadruple (q : Scalar × Scalar × Scalar × Scalar) : Document :=
  array [scalar q.1, scalar q.2.1, scalar q.2.2.1, scalar q.2.2.2]

/-- Text of a document without parts. -/
def leaf : Document → List Char
  | boolean b => if b then ['t', 'r', 'u', 'e'] else ['f', 'a', 'l', 's', 'e']
  | natural n => Decimal.digits n
  | scalar x => (Decimal.jsonScalar? x).getD ['n', 'u', 'l', 'l']
  | null | array _ | object _ => ['n', 'u', 'l', 'l']

/-- Name of a member, between quotes. -/
def key (name : String) : List Char := '"' :: name.toList ++ ['"']

mutual

/-- Characters on one line. -/
def compactChars : Document → List Char
  | array ds => '[' :: compactElements ds ++ [']']
  | object ms => '\x7b' :: compactMembers ms ++ ['\x7d']
  | d => d.leaf

def compactElements : List Document → List Char
  | [] => []
  | [d] => d.compactChars
  | d :: ds => d.compactChars ++ [','] ++ compactElements ds

def compactMembers : List (String × Document) → List Char
  | [] => []
  | [(name, d)] => key name ++ [':'] ++ d.compactChars
  | (name, d) :: ms => key name ++ [':'] ++ d.compactChars ++ [','] ++ compactMembers ms

end

/-- Start of a line at a level of indentation. -/
def newline (level : Nat) : List Char := '\n' :: List.replicate (2 * level) ' '

mutual

/-- Characters over several lines, from a level of indentation on. -/
def prettyChars (level : Nat) : Document → List Char
  | array [] => ['[', ']']
  | array ds => '[' :: prettyElements (level + 1) ds ++ newline level ++ [']']
  | object [] => ['\x7b', '\x7d']
  | object ms => '\x7b' :: prettyMembers (level + 1) ms ++ newline level ++ ['\x7d']
  | d => d.leaf

def prettyElements (level : Nat) : List Document → List Char
  | [] => []
  | [d] => newline level ++ d.prettyChars level
  | d :: ds => newline level ++ d.prettyChars level ++ [','] ++ prettyElements level ds

def prettyMembers (level : Nat) : List (String × Document) → List Char
  | [] => []
  | [(name, d)] => newline level ++ key name ++ [':', ' '] ++ d.prettyChars level
  | (name, d) :: ms =>
    newline level ++ key name ++ [':', ' '] ++ d.prettyChars level ++ [','] ++
      prettyMembers level ms

end

/-- Text on one line. -/
def compact (d : Document) : String := .ofList d.compactChars

/-- Text over several lines. -/
def pretty (d : Document) : String := .ofList (d.prettyChars 0)

end Document

end PlantGrowth.Json
