import PacketTree.Namespace.Basic
import PacketTree.Regex.Automaton.Size
import PacketTree.Regex.Marking

/-!
# Patterns

A pattern selects the namespaces that a dissector is called for: by their innermost tokens, or by a
regular expression over their text.
-/

namespace PacketTree

/-- A condition on namespaces. -/
inductive Pattern where
  /-- The namespace ends with these tokens. -/
  | suffix (tokens : Namespace)
  /-- Some stretch of the text matches an expression, which is kept with its own text. -/
  | regex (text : String) (e : Regex)
deriving Repr

namespace Pattern

/-- The text of an expression between the two ends of a text. -/
def anchored (expression : String) : String := "^(?:" ++ expression ++ ")$"

/-- The pattern of an expression, put between anchors; `none` if that makes no expression. -/
def regex? (tables : Regex.Tables) (expression : String) : Option Pattern :=
  (Regex.parse? tables (anchored expression)).map (.regex (anchored expression))

/-- The pattern selects a namespace. -/
def selects (p : Pattern) (ns : Namespace) : Bool :=
  match p with
  | .suffix tokens => ns.EndsWith tokens
  | .regex _ e => e.isMatch ns.text

/-- The text of a pattern. -/
def text : Pattern → String
  | .suffix tokens => tokens.text
  | .regex text _ => "/" ++ text ++ "/"

end Pattern

end PacketTree
