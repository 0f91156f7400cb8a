import PacketTree.Text.Blank

/-!
# Namespaces

The namespace of a layer names the protocols from the outside in. A token in it is confirmed when
that protocol has been taken apart, tentative when it is what the bytes are said to be, and a
placeholder when nothing is known but a number.

## Text

Tokens are separated by white space: `name` is confirmed, `*name` tentative and `<name>` a
placeholder.
-/

namespace PacketTree

/-- What is known of a protocol in a namespace. -/
inductive Token where
  /-- The protocol was taken apart. -/
  | confirmed (name : String)
  /-- The protocol is announced and not yet taken apart. -/
  | tentative (name : String)
  /-- The protocol is unknown. -/
  | placeholder (name : String)
deriving DecidableEq, Repr

namespace Token

/-- The name without its marks. -/
def name : Token → String
  | .confirmed n | .tentative n | .placeholder n => n

/-- The protocol is announced only. -/
def isTentative : Token → Bool
  | .tentative _ => true
  | _ => false

/-- The protocol was taken apart. -/
def isConfirmed : Token → Bool
  | .confirmed _ => true
  | _ => false

/-- The token with its marks. -/
def text : Token → String
  | .confirmed n => n
  | .tentative n => "*" ++ n
  | .placeholder n => "<" ++ n ++ ">"

/-- The characters between angle brackets, if a word is one in angle brackets. -/
def bracketed? : List Char → Option (List Char)
  | '<' :: rest => if rest.getLast? = some '>' then some rest.dropLast else none
  | _ => none

/-- The token that a word stands for. -/
def ofWord (word : String) : Token :=
  match word.toList with
  | '*' :: rest => .tentative (String.ofList rest)
  | chars => match bracketed? chars with
    | some inner => .placeholder (String.ofList inner)
    | none => .confirmed word

end Token

/-- The protocols of a layer, from the outside in. -/
structure Namespace where
  /-- The tokens in order. -/
  tokens : List Token
deriving DecidableEq, Repr, Inhabited

namespace Namespace

/-- The namespace that a text stands for. -/
def parse (text : String) : Namespace := ⟨(Text.words text).map Token.ofWord⟩

/-- The text of a namespace, a space between its tokens. -/
def text (ns : Namespace) : String := " ".intercalate (ns.tokens.map Token.text)

/-- The namespace of a link type that nothing is known of. -/
def link (number : Nat) : Namespace := ⟨[.placeholder ("link:" ++ toString number)]⟩

/-- There is no token. -/
def isEmpty (ns : Namespace) : Bool := ns.tokens.isEmpty

/-- The innermost token. -/
def last? (ns : Namespace) : Option Token := ns.tokens.getLast?

/-- The name of the innermost protocol that was taken apart. -/
def primary? (ns : Namespace) : Option String :=
  (ns.tokens.reverse.find? Token.isConfirmed).map Token.name

/-- The tokens without a tentative one at the end. -/
def settled (ns : Namespace) : List Token :=
  if ns.last?.any Token.isTentative then ns.tokens.dropLast else ns.tokens

/-- Confirms a protocol in place of the one announced. -/
def descend (ns : Namespace) (name : String) : Namespace := ⟨ns.settled ++ [.confirmed name]⟩

/-- Announces a protocol in place of the one announced before. -/
def announce (ns : Namespace) (name : String) : Namespace := ⟨ns.settled ++ [.tentative name]⟩

/-- Adds a confirmed protocol at the end. -/
def push (ns : Namespace) (name : String) : Namespace := ⟨ns.tokens ++ [.confirmed name]⟩

/-- The innermost tokens are the given ones, kinds included. -/
def EndsWith (ns suffix : Namespace) : Prop := suffix.tokens <:+ ns.tokens

instance (ns suffix : Namespace) : Decidable (ns.EndsWith suffix) :=
  inferInstanceAs (Decidable (_ <:+ _))

/-! ### Laws -/

@[simp] theorem last?_descend (ns : Namespace) (name : String) :
    (ns.descend name).last? = some (.confirmed name) := by
  simp [descend, last?]

@[simp] theorem last?_announce (ns : Namespace) (name : String) :
    (ns.announce name).last? = some (.tentative name) := by
  simp [announce, last?]

@[simp] theorem last?_push (ns : Namespace) (name : String) :
    (ns.push name).last? = some (.confirmed name) := by
  simp [push, last?]

/-- A protocol that was taken apart is the innermost one. -/
@[simp] theorem primary?_descend (ns : Namespace) (name : String) :
    (ns.descend name).primary? = some name := by
  simp [descend, primary?, Token.isConfirmed, Token.name]

/-- Announcing a protocol and then confirming one leaves no trace of the announcement. -/
@[simp] theorem descend_announce (ns : Namespace) (announced name : String) :
    (ns.announce announced).descend name = ⟨ns.settled ++ [.confirmed name]⟩ := by
  have h : (ns.announce announced).settled = ns.settled := by
    simp [settled, announce, last?, Token.isTentative]
  rw [descend, h]

/-- The innermost token alone says whether a namespace ends with one token. -/
theorem endsWith_singleton (ns : Namespace) (t : Token) : ns.EndsWith ⟨[t]⟩ ↔ ns.last? = some t :=
  List.singleton_suffix_iff_getLast?_eq_some

theorem endsWith_refl (ns : Namespace) : ns.EndsWith ns := List.suffix_refl _

end Namespace

end PacketTree
