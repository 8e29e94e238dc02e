import Tokenizer.Mode

/-!
The stack of active modes. The root mode is the floor of every stack and only regions lie above
it, so a stack is the list of the regions that are open.
-/
namespace Tokenizer

/-- The open regions, innermost first. -/
structure ModeStack where
  regions : List Region := []
deriving DecidableEq, Repr, Inhabited

namespace ModeStack

def top (s : ModeStack) : Mode :=
  match s.regions with
  | [] => .root
  | region :: _ => .inside region

def enter (s : ModeStack) (region : Region) : ModeStack := ⟨region :: s.regions⟩

/-- Closes the innermost region. The floor stays. -/
def leave (s : ModeStack) : ModeStack := ⟨s.regions.tail⟩

/-- Enters `mode`, if it is the inside of a region. -/
def push? (s : ModeStack) (mode : Mode) : Option ModeStack :=
  mode.region?.map s.enter

/-- Leaves the active mode: that mode and the stack below it. The floor cannot be left. -/
def pop? (s : ModeStack) : Option (Mode × ModeStack) :=
  s.regions.head?.map fun region => (.inside region, s.leave)

def isRoot (s : ModeStack) : Bool := s.top == .root

/-- Number of modes, the floor included. -/
def depth (s : ModeStack) : Nat := s.regions.length + 1

/-- The modes from the floor up. -/
def toList (s : ModeStack) : List Mode := .root :: s.regions.reverse.map .inside

def names (s : ModeStack) : List String := s.toList.map Mode.name

def label (s : ModeStack) : String :=
  "[" ++ ", ".intercalate (s.toList.map Mode.label) ++ "]"

/-- Pushes the named modes in turn onto a fresh stack; a mode that cannot be entered is skipped. -/
def ofNames (names : List String) : Except UnknownMode ModeStack :=
  names.foldlM (fun stack name => do
    let mode ← Mode.parse name
    return (stack.push? mode).getD stack) {}

/-- The active mode is the floor or the inside of a region. -/
theorem top_cases (s : ModeStack) : s.top = .root ∨ ∃ region, s.top = .inside region := by
  rw [top]
  split
  · exact .inl rfl
  · exact .inr ⟨_, rfl⟩

@[simp] theorem length_toList (s : ModeStack) : s.toList.length = s.depth := by
  simp [toList, depth]

theorem toList_enter (s : ModeStack) (region : Region) :
    (s.enter region).toList = s.toList ++ [.inside region] := by
  simp [toList, enter]

@[simp] theorem leave_enter (s : ModeStack) (region : Region) : (s.enter region).leave = s := rfl

end ModeStack
end Tokenizer
