/-!
# Columns of text

Texts filled up with spaces to a width, counted in characters. A text that is
wider stays as it is.
-/

namespace LuaTree.Text

def spaces (count : Nat) : String :=
  String.ofList (List.replicate count ' ')

/-- Fill up on the left. -/
def alignRight (width : Nat) (text : String) : String :=
  spaces (width - text.length) ++ text

/-- Fill up on the right. -/
def alignLeft (width : Nat) (text : String) : String :=
  text ++ spaces (width - text.length)

end LuaTree.Text
