import PocketShell.Json.Reader
import PocketShell.Json.Writer
import PocketShell.Snapshot.Decode
import PocketShell.Snapshot.Encode
import PocketShell.Time.Rfc3339

/-!
# Snapshots as text

A snapshot is written as a JSON array with one object for each entry. Members stand in a fixed
order, and that of the root has no parent. On reading, members may stand in any order and members
of other names are passed over, but none of the known ones may be missing or repeated, and an
absent parent may also be written as null. An entry may also be an array of its kind and then all
members in order.
-/

namespace PocketShell.Snapshot

open Json (Value)
open Time (Stamp)

/-! ## Writing -/

/-- The member of an optional parent: none for the root. -/
def parentMember (parent : Option Nat) : List (String × Value) :=
  match parent with
  | none => []
  | some position => [("parent", .integer position)]

/-- The kind of an entry, as it is written. -/
def Body.kind : Body → String
  | directory => "directory"
  | file .. => "file"

/-- The members of an entry's body. -/
def Body.members : Body → List (String × Value)
  | directory => []
  | file content size => [("content", .string content), ("size", .integer size)]

/-- The object of an entry, if its times can be written. -/
def Entry.toJson? (entry : Entry) : Option Value := do
  let created ← Time.Rfc3339.write? entry.attributes.created
  let updated ← Time.Rfc3339.write? entry.attributes.updated
  pure <| .object <|
    [("type", Value.string entry.body.kind)] ++ parentMember entry.parent ++
      [("name", .string entry.name), ("createdAt", .string created),
        ("updatedAt", .string updated), ("permissions", .string entry.attributes.permissions),
        ("owner", .string entry.attributes.owner)] ++
      entry.body.members

/-- The text of a list of entries, if all times can be written. -/
def write? (entries : List Entry) : Option String :=
  (entries.mapM Entry.toJson?).map fun values => Json.write (.array values)

/-! ## Reading -/

/-- The members of an object, or the items of an array, by name. -/
abbrev Fields := List (String × Value)

/-- The members of every entry, in the order in which an array gives them. -/
def commonFields : List String :=
  ["parent", "name", "createdAt", "updatedAt", "permissions", "owner"]

/-- The members of an entry of the given kind. -/
def fieldsOf? (kind : String) : Option (List String) :=
  if kind = "directory" then some commonFields
  else if kind = "file" then some (commonFields ++ ["content", "size"])
  else none

/-- The members of the given names, if none of them is repeated. -/
def Fields.select? (fields : Fields) (names : List String) : Option Fields :=
  let known := fields.filter (names.contains ·.1)
  if (known.map (·.1)).Nodup then some known else none

/-- The text of the member `name`. -/
def Fields.text? (fields : Fields) (name : String) : Option String :=
  match fields.lookup name with
  | some (.string text) => some text
  | _ => none

/-- The stamp of the member `name`. -/
def Fields.stamp? (fields : Fields) (name : String) : Option Stamp :=
  (fields.text? name).bind Time.Rfc3339.read?

/-- The number of a value that counts something. -/
def count? : Value → Option Nat
  | .integer n => n.toNat?
  | _ => none

/-- The parent that the members name; absent or null, it is none. -/
def Fields.parent? (fields : Fields) : Option (Option Nat) :=
  match fields.lookup "parent" with
  | none | some .null => some none
  | some value => (count? value).map some

/-- The body of an entry of the given kind. -/
def Fields.body? (fields : Fields) (kind : String) : Option Body :=
  if kind = "file" then do
    pure (.file (← fields.text? "content") (← (fields.lookup "size").bind count?))
  else some .directory

/-- The entry of the given kind with the given members. -/
def Fields.decode? (fields : Fields) (kind : String) : Option Entry := do
  let parent ← fields.parent?
  let name ← fields.text? "name"
  let created ← fields.stamp? "createdAt"
  let updated ← fields.stamp? "updatedAt"
  let permissions ← fields.text? "permissions"
  let owner ← fields.text? "owner"
  let body ← fields.body? kind
  pure ⟨parent, name, ⟨created, updated, permissions, owner⟩, body⟩

/-- The kind of an object: its member `type`, which may stand anywhere but only once. -/
def kind? (members : Fields) : Option String :=
  match members.filter (·.1 == "type") with
  | [(_, .string kind)] => some kind
  | _ => none

/-- The entry that a value denotes. -/
def Entry.ofJson? : Value → Option Entry
  | .object members => do
    let kind ← kind? members
    let fields ← Fields.select? members (← fieldsOf? kind)
    fields.decode? kind
  | .array (.string kind :: items) => do
    let names ← fieldsOf? kind
    if items.length = names.length then Fields.decode? (names.zip items) kind else none
  | _ => none

/-- The entries that a text denotes. -/
def read? (text : String) : Option (List Entry) := do
  match ← Json.read? text with
  | .array values => values.mapM Entry.ofJson?
  | _ => none

/-! ## Trees -/

/-- The text of a tree, if all times can be written. -/
def ofTree? (root : Node) : Option String :=
  write? (encode root)

/-- The tree that a text denotes. -/
def toTree (text : String) : Except Fault Node :=
  match read? text with
  | none => .error .unreadable
  | some entries => decode entries

end PocketShell.Snapshot
