/-!
# Colours and styles

The looks of a character on the screen, and the palette of the explorer.
-/

namespace LuaTree.Explorer

inductive Color where
  /-- The default of the terminal. -/
  | reset
  | black
  | rgb (red green blue : Nat)
deriving DecidableEq, Repr, Inhabited

/-- The looks of a text; a colour that is not given is that of the area around it. -/
structure Style where
  fg : Option Color := none
  bg : Option Color := none
  bold : Bool := false
deriving DecidableEq, Repr, Inhabited

namespace Style

def ofColor (color : Color) : Style :=
  { fg := some color }

def on (style : Style) (color : Color) : Style :=
  { style with bg := some color }

def strong (style : Style) : Style :=
  { style with bold := true }

end Style

namespace Palette

def text : Color := .rgb 205 214 244
/-- Brackets and the badge of the selected node. -/
def accent : Color := .rgb 137 180 250
/-- Line numbers inside the selected span. -/
def spanNumber : Color := .rgb 250 179 135
/-- Comments, line numbers and guides. -/
def faint : Color := .rgb 108 112 134
def success : Color := .rgb 166 227 161
def keyword : Color := .rgb 203 166 247
/-- `nil`, `true` and `false`. -/
def constant : Color := .rgb 245 194 231
def string : Color := .rgb 166 227 161
def number : Color := .rgb 250 179 135
def focusedBorder : Color := .rgb 249 226 175
def border : Color := .rgb 108 112 134
/-- Behind the lines of the selected node, and behind the status bar. -/
def spanGround : Color := .rgb 50 50 70
/-- Behind the selected row. -/
def selectedGround : Color := .rgb 69 71 90
def call : Color := .rgb 249 226 175
def nodeKind : Color := .rgb 148 226 213

end Palette

end LuaTree.Explorer
