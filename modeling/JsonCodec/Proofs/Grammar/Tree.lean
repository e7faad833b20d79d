import Mathlib
import JsonCodec.Proofs.Grammar.Token

set_option autoImplicit false

/-!
# Values as they are written

A tree is a value together with all that was chosen in writing it. Its text is what a reader gets
to see; tokens, depth and value are read off the tree by recursion.
-/
namespace JsonCodec.Grammar

structure Name where
  before : Blanks
  pieces : List Piece
  between : Blanks

def Name.text (n : Name) : Bytes :=
  n.before.text ++ (Token.string n.pieces).text ++ n.between.text ++ [Byte.colon]

def Name.key (n : Name) : Bytes := Piece.spelled none n.pieces

mutual

inductive Tree where
  | token (t : Token)
  | empty (c : Container) (blanks : Blanks)
  | array (items : Items)
  | object (members : Members)

inductive Items where
  | last (before : Blanks) (item : Tree) (after : Blanks)
  | more (before : Blanks) (item : Tree) (after : Blanks) (rest : Items)

inductive Members where
  | last (name : Name) (before : Blanks) (value : Tree) (after : Blanks)
  | more (name : Name) (before : Blanks) (value : Tree) (after : Blanks) (rest : Members)

end

def openingByte : Container → UInt8
  | .array => Byte.openBracket
  | .object => Byte.openBrace

mutual

def Tree.text : Tree → Bytes
  | .token t => t.text
  | .empty c blanks => openingByte c :: (blanks.text ++ [c.close])
  | .array items => Byte.openBracket :: (items.text ++ [Byte.closeBracket])
  | .object members => Byte.openBrace :: (members.text ++ [Byte.closeBrace])

def Items.text : Items → Bytes
  | .last before item after => before.text ++ item.text ++ after.text
  | .more before item after rest =>
    before.text ++ item.text ++ after.text ++ Byte.comma :: rest.text

def Members.text : Members → Bytes
  | .last name before value after => name.text ++ before.text ++ value.text ++ after.text
  | .more name before value after rest =>
    name.text ++ before.text ++ value.text ++ after.text ++ Byte.comma :: rest.text

end

mutual

def Tree.tokens : Tree → List Token
  | .token t => [t]
  | .empty _ _ => []
  | .array items => items.tokens
  | .object members => members.tokens

def Items.tokens : Items → List Token
  | .last _ item _ => item.tokens
  | .more _ item _ rest => item.tokens ++ rest.tokens

def Members.tokens : Members → List Token
  | .last name _ value _ => .string name.pieces :: value.tokens
  | .more name _ value _ rest => .string name.pieces :: (value.tokens ++ rest.tokens)

end

mutual

def Tree.depth : Tree → Nat
  | .token _ => 0
  | .empty _ _ => 1
  | .array items => items.depth + 1
  | .object members => members.depth + 1

def Items.depth : Items → Nat
  | .last _ item _ => item.depth
  | .more _ item _ rest => max item.depth rest.depth

def Members.depth : Members → Nat
  | .last _ _ value _ => value.depth
  | .more _ _ value _ rest => max value.depth rest.depth

end

mutual

/-- The value a tree is put together to from the values of its tokens. Of members with the same key
only the last one stays, in its place; an index may have been built on the way. -/
def Tree.value (scalar : Token → Value) : Tree → Value
  | .token t => scalar t
  | .empty .array _ => .array []
  | .empty .object _ => .object Object.empty
  | .array items => .array (items.values scalar)
  | .object members =>
    .object {
      entries := Object.dropRepeated Prod.fst (members.entries scalar)
      index := (Object.ofList (members.entries scalar)).index }

def Items.values (scalar : Token → Value) : Items → List Value
  | .last _ item _ => [item.value scalar]
  | .more _ item _ rest => item.value scalar :: rest.values scalar

def Members.entries (scalar : Token → Value) : Members → List (Bytes × Value)
  | .last name _ value _ => [(name.key, value.value scalar)]
  | .more name _ value _ rest => (name.key, value.value scalar) :: rest.entries scalar

end

def Members.keys : Members → List Bytes
  | .last name _ _ _ => [name.key]
  | .more name _ _ _ rest => name.key :: rest.keys

theorem Members.keys_entries (scalar : Token → Value) :
    ∀ members : Members, (members.entries scalar).map Prod.fst = members.keys
  | .last name _ _ _ => by rw [entries, keys, List.map_cons, List.map_nil]
  | .more name _ _ _ rest => by rw [entries, keys, List.map_cons, rest.keys_entries]

mutual

def Tree.KeysIncrease : Tree → Prop
  | .token _ => True
  | .empty _ _ => True
  | .array items => items.KeysIncrease
  | .object members => members.keys.Pairwise (· < ·) ∧ members.KeysIncrease

def Items.KeysIncrease : Items → Prop
  | .last _ item _ => item.KeysIncrease
  | .more _ item _ rest => item.KeysIncrease ∧ rest.KeysIncrease

def Members.KeysIncrease : Members → Prop
  | .last _ _ value _ => value.KeysIncrease
  | .more _ _ value _ rest => value.KeysIncrease ∧ rest.KeysIncrease

end

end JsonCodec.Grammar
