import LuaTree.Arena.Navigation
import LuaTree.Main
import LuaTree.Rewrite.Passes
import LuaTree.Proofs.Abreast
import LuaTree.Proofs.Adoption
import LuaTree.Proofs.CommentFidelity
import LuaTree.Proofs.Comparison
import LuaTree.Proofs.Contents
import LuaTree.Proofs.Highlighting
import LuaTree.Proofs.Identity
import LuaTree.Proofs.Levels
import LuaTree.Proofs.LineBreaks
import LuaTree.Proofs.Live
import LuaTree.Proofs.LongestMatch
import LuaTree.Proofs.Necessity
import LuaTree.Proofs.Nesting
import LuaTree.Proofs.NormalForm
import LuaTree.Proofs.Numbering
import LuaTree.Proofs.OneLine
import LuaTree.Proofs.Parented
import LuaTree.Proofs.Parentheses
import LuaTree.Proofs.ParentKey
import LuaTree.Proofs.Positions
import LuaTree.Proofs.RoundTrip
import LuaTree.Proofs.Samples
import LuaTree.Proofs.AfterTerminal
import LuaTree.Proofs.FirstError
import LuaTree.Proofs.Blanking
import LuaTree.Proofs.OpenEnds
import LuaTree.Proofs.Openings
import LuaTree.Proofs.Scrolling
import LuaTree.Proofs.Sharing
import LuaTree.Proofs.Slices
import LuaTree.Proofs.Slots
import LuaTree.Proofs.Substitution
import LuaTree.Proofs.Tiling
import LuaTree.Proofs.TokenFidelity
import LuaTree.Proofs.Unambiguous
import LuaTree.Proofs.Walks
import LuaTree.Proofs.WellShaped
