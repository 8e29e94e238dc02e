/-! File paths: names between slashes. -/
namespace Tokenizer.Path

/-- The parts of a path between its slashes; empty where slashes touch or stand at an end. -/
def parts (path : String) : List String := path.splitOn "/"

/-- The last name in a path. Empty parts and `.` are no names, and a final `..` names nothing. -/
def fileName? (path : String) : Option String :=
  match ((parts path).filter fun part => !(part == "" || part == ".")).getLast? with
  | some ".." => none
  | name? => name?

/-- What follows the last dot of a name, unless that dot is the first character. -/
def extensionOf? (name : String) : Option String :=
  let reversed := name.toList.reverse
  let stem := reversed.dropWhile (· != '.')
  if stem.length ≤ 1 then none
  else some (String.ofList (reversed.takeWhile (· != '.')).reverse)

def extension? (path : String) : Option String := (fileName? path).bind extensionOf?

end Tokenizer.Path
