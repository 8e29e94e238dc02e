/-!
Lexical modes. A mode selects the rules that apply at the current place. Code is scanned in the
root mode; a comment or a string is a region with a mode of its own.
-/
namespace Tokenizer

/-- A part of the source that code can enter and leave. -/
inductive Region where
  | blockComment
  | docComment
  | string
deriving DecidableEq, Repr

/-- A named set of rules. -/
inductive Mode where
  /-- Code. -/
  | root
  /-- White space and comment openers, which the root mode includes. -/
  | whitespace
  /-- The inside of a region. -/
  | inside (region : Region)
deriving DecidableEq, Repr

namespace Mode

def all : List Mode :=
  [root, whitespace, inside .blockComment, inside .docComment, inside .string]

/-- The name by which a mode is written and read. -/
def name : Mode → String
  | root => "root"
  | whitespace => "whitespace"
  | inside .blockComment => "comment"
  | inside .docComment => "doc"
  | inside .string => "string"

def label : Mode → String
  | root => "Root"
  | whitespace => "Whitespace"
  | inside .blockComment => "BlockComment"
  | inside .docComment => "DocComment"
  | inside .string => "String"

/-- The region that the mode is the inside of; only such modes can be entered. -/
def region? : Mode → Option Region
  | inside region => some region
  | root | whitespace => none

theorem mem_all (m : Mode) : m ∈ all := by
  cases m with
  | inside region => cases region <;> decide
  | _ => decide

end Mode

structure UnknownMode where
  name : String
deriving DecidableEq, Repr

/-- The complaint about an unknown name lists the known ones. -/
def UnknownMode.message (e : UnknownMode) : String :=
  "unknown lexer mode `" ++ e.name ++ "` (expected one of: " ++
    ", ".intercalate (Mode.all.map Mode.name) ++ ")"

def Mode.parse (name : String) : Except UnknownMode Mode :=
  match Mode.all.find? (·.name == name) with
  | some mode => .ok mode
  | none => .error ⟨name⟩

theorem Mode.parse_name (m : Mode) : Mode.parse m.name = .ok m := by
  cases m with
  | inside region => cases region <;> rfl
  | _ => rfl

end Tokenizer
