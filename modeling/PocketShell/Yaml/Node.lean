import PocketShell.Yaml.Scalar

/-!
# Nodes

A document is a tree of nodes.
-/

namespace PocketShell.Yaml

/-- The meaning of a part of a document. -/
inductive Node where
  | scalar (value : Scalar)
  | sequence (items : List Node)
  | mapping (pairs : List (Node × Node))
  /-- A node under a tag whose meaning is left to the reader. -/
  | tagged (handle suffix : String) (node : Node)
  /-- A scalar that is not what its tag says, or a node that would contain itself. -/
  | invalid
  deriving Repr

namespace Node

/-- A node that is left out. -/
def null : Node :=
  scalar (Scalar.ofPlain "~")

/-- Keys and values that follow one another, in pairs. An invalid node is no key and is passed
over where one is due. -/
def pairs : List Node → List (Node × Node)
  | [] => []
  | invalid :: nodes => pairs nodes
  | [_] => []
  | key :: value :: nodes => (key, value) :: pairs nodes

/-- Whether a node is the given text. -/
def isText (text : String) : Node → Bool
  | scalar (.string other) => other == text
  | _ => false

/-- The value of a key in the pairs of a mapping; of several, the last one counts. -/
def lookup? (key : String) (pairs : List (Node × Node)) : Option Node :=
  (pairs.reverse.find? fun pair => pair.1.isText key).map Prod.snd

end Node

end PocketShell.Yaml
