import PocketShell.Yaml.Lexer
import PocketShell.Yaml.Node

/-!
# From tokens to documents

A text holds any number of documents. Anchors and the meaning of tag handles hold for one document
each.
-/

namespace PocketShell.Yaml

/-- What is known while the tokens are read. -/
structure Reading where
  tokens : List Token
  /-- What the handles of tags stand for. -/
  handles : List (String × String)
  /-- The number of each anchor, the latest first. -/
  anchors : List (String × Nat)
  /-- The nodes of the anchors that have been read to their end. -/
  anchored : List (Nat × Node)
  /-- How many anchors there have been. -/
  anchorCount : Nat

/-- A step of reading, which fails on tokens that make no document. -/
abbrev Read := StateT Reading Option

namespace Read

/-- The tokens make no document. -/
def fail {α : Type} : Read α :=
  fun _ => none

/-- The next token. There is always one: behind the end comes the end. -/
def peek : Read Token := do
  pure ((← get).tokens.headD .streamEnd)

/-- Takes the next token. -/
def skip : Read Unit :=
  modify fun r => { r with tokens := r.tokens.drop 1 }

/-- Takes the given token and fails on any other. -/
def expect (token : Token) : Read Unit := do
  if (← peek) = token then skip else fail

/-! ## Properties of nodes -/

/-- The tag and the anchor in front of a node. -/
structure Properties where
  tag : Option (String × String)
  anchor : Option Nat

/-- The handles and tags of the core of YAML start so. -/
def coreStart : String := "tag:yaml.org,2002:"

/-- What a handle and a suffix stand for. A handle that is closed has to be declared, except for
the one of the core. -/
def resolveTag (handle suffix : String) : Read (String × String) := do
  match (← get).handles.lookup handle with
  | some start => pure (start, suffix)
  | none =>
    if handle = "!!" then pure (coreStart, suffix)
    else if isClosedHandle handle then fail
    else pure (handle, suffix)

/-- Gives a name the next number. Its node is not yet known. -/
def addAnchor (name : String) : Read Nat :=
  modifyGet fun r =>
    let number := r.anchorCount
    (number, { r with anchors := (name, number) :: r.anchors, anchorCount := number + 1 })

/-- The node that an alias stands for. -/
def aliased (name : String) : Read Node := do
  let r ← get
  match r.anchors.lookup name with
  | none => fail
  | some number => pure ((r.anchored.lookup number).getD .invalid)

/-- The properties in front of a node: at most one of each, in either order. -/
def properties : Read Properties := do
  match ← peek with
  | .anchor name =>
    skip
    let number ← addAnchor name
    match ← peek with
    | .tag handle suffix =>
      skip
      pure ⟨some (← resolveTag handle suffix), some number⟩
    | _ => pure ⟨none, some number⟩
  | .tag handle suffix =>
    skip
    let tag ← resolveTag handle suffix
    match ← peek with
    | .anchor name =>
      skip
      pure ⟨some tag, some (← addAnchor name)⟩
    | _ => pure ⟨some tag, none⟩
  | _ => pure ⟨none, none⟩

/-- The node of a scalar under a tag. -/
def scalarNode (tag : Option (String × String)) (isPlain : Bool) (text : String) : Node :=
  if !isPlain then .scalar (.string text)
  else
    match tag with
    | none => .scalar (.ofPlain text)
    | some (handle, suffix) =>
      if handle = coreStart then ((Scalar.ofPlainAs? suffix text).map Node.scalar).getD .invalid
      else .scalar (.ofPlain text)

/-- A node under its tag. The tags of the core have done their work by then. -/
def underTag (tag : Option (String × String)) (node : Node) : Node :=
  match tag with
  | some (handle, suffix) => if handle = coreStart then node else .tagged handle suffix node
  | none => node

/-- The finished node with the given properties. -/
def finish (properties : Properties) (node : Node) : Read Node := do
  let node := underTag properties.tag node
  match properties.anchor with
  | some number => modify fun r => { r with anchored := (number, node) :: r.anchored }
  | none => pure ()
  pure node

/-! ## Nodes -/

/-- A node, which is null if the next token is one of `ends`. -/
def orNull (ends : List Token) (read : Read Node) : Read Node := do
  if ends.contains (← peek) then pure .null else read

/-- A node, which is null if the next token is one of `ends`. The token is then taken. -/
def skipOrRead (ends : List Token) (read : Read Node) : Read Node := do
  if ends.contains (← peek) then
    skip
    pure .null
  else read

/-- The value behind a key: null if no colon follows. -/
def valueOrNull (ends : List Token) (read : Read Node) : Read Node := do
  if (← peek) = .value then
    skip
    orNull ends read
  else pure .null

mutual

/-- A node. Block collections and sequences without indentation are allowed only in some
places. -/
def node (inBlock unindented : Bool) : Nat → Read Node
  | 0 => fail
  | fuel + 1 => do
    match ← peek with
    | .alias name =>
      skip
      aliased name
    | _ =>
      let properties ← properties
      let token ← peek
      match token with
      | .scalar isPlain text =>
        skip
        finish properties (scalarNode properties.tag isPlain text)
      | .flowSequenceStart =>
        skip
        finish properties (.sequence (← flowSequence true fuel))
      | .flowMappingStart =>
        skip
        finish properties (.mapping (Node.pairs (← flowMapping true fuel)))
      | _ =>
        if token = .blockEntry && unindented then
          finish properties (.sequence (← unindentedSequence fuel))
        else if token = .blockSequenceStart && inBlock then
          skip
          finish properties (.sequence (← blockSequence fuel))
        else if token = .blockMappingStart && inBlock then
          skip
          finish properties (.mapping (Node.pairs (← blockMapping fuel)))
        else if properties.tag.isSome || properties.anchor.isSome then
          finish properties (scalarNode properties.tag true "")
        else fail

/-- The items of a block sequence. -/
def blockSequence : Nat → Read (List Node)
  | 0 => fail
  | fuel + 1 => do
    match ← peek with
    | .blockEnd =>
      skip
      pure []
    | .blockEntry =>
      skip
      let item ← orNull [.blockEntry, .blockEnd] (node true false fuel)
      pure (item :: (← blockSequence fuel))
    | _ => fail

/-- The items of a sequence that is indented no further than the mapping around it. -/
def unindentedSequence : Nat → Read (List Node)
  | 0 => fail
  | fuel + 1 => do
    if (← peek) = .blockEntry then
      skip
      let item ← orNull [.blockEntry, .key, .value, .blockEnd] (node true false fuel)
      pure (item :: (← unindentedSequence fuel))
    else pure []

/-- The keys and values of a block mapping, one after another. -/
def blockMapping : Nat → Read (List Node)
  | 0 => fail
  | fuel + 1 => do
    let ends : List Token := [.key, .value, .blockEnd]
    match ← peek with
    | .blockEnd =>
      skip
      pure []
    | .key =>
      skip
      let key ← orNull ends (node true true fuel)
      let value ← valueOrNull ends (node true true fuel)
      pure (key :: value :: (← blockMapping fuel))
    | .value =>
      let value ← valueOrNull ends (node true true fuel)
      pure (.null :: value :: (← blockMapping fuel))
    | _ => fail

/-- The keys and values of a flow mapping, one after another. -/
def flowMapping (isFirst : Bool) : Nat → Read (List Node)
  | 0 => fail
  | fuel + 1 => do
    let ends : List Token := [.flowEntry, .flowMappingEnd]
    if (← peek) = .flowMappingEnd then
      skip
      pure []
    else
      if !isFirst then expect .flowEntry
      match ← peek with
      | .flowMappingEnd =>
        skip
        pure []
      | .key =>
        skip
        let key ← orNull (.value :: ends) (node false false fuel)
        let value ← valueOrNull ends (node false false fuel)
        pure (key :: value :: (← flowMapping false fuel))
      | .value =>
        let value ← valueOrNull ends (node false false fuel)
        pure (.null :: value :: (← flowMapping false fuel))
      | _ =>
        let key ← node false false fuel
        pure (key :: .null :: (← flowMapping false fuel))

/-- The items of a flow sequence. -/
def flowSequence (isFirst : Bool) : Nat → Read (List Node)
  | 0 => fail
  | fuel + 1 => do
    if (← peek) = .flowSequenceEnd then
      skip
      pure []
    else
      if !isFirst then expect .flowEntry
      match ← peek with
      | .flowSequenceEnd =>
        skip
        pure []
      | .key =>
        skip
        let ends : List Token := [.flowEntry, .flowSequenceEnd]
        let key ← skipOrRead (.value :: ends) (node false false fuel)
        let value ← valueOrNull ends (node false false fuel)
        pure (.mapping (Node.pairs [key, value]) :: (← flowSequence false fuel))
      | _ =>
        let item ← node false false fuel
        pure (item :: (← flowSequence false fuel))

end

/-! ## Documents -/

/-- Whether a token is a directive. -/
def isDirective : Token → Bool
  | .versionDirective | .tagDirective .. => true
  | _ => false

/-- Takes the directives in front of a document, of which the last one alone says what a handle
stands for. There may be one version among them. -/
def directives : Nat → Bool → Read Unit
  | 0, _ => fail
  | fuel + 1, versioned => do
    match ← peek with
    | .versionDirective =>
      if versioned then fail
      modify fun r => { r with handles := [] }
      skip
      directives fuel true
    | .tagDirective handle start =>
      modify fun r => { r with handles := [(handle, start)] }
      skip
      directives fuel versioned
    | _ => pure ()

/-- Enough steps for reading what is left: no token is looked at by more than two of them before
it is taken. -/
def enough : Read Nat := do
  pure (2 * (← get).tokens.length + 2)

/-- Takes marks of the end of a document. -/
def skipEnds : Read Unit :=
  modify fun r => { r with tokens := r.tokens.dropWhile (· == .documentEnd) }

/-- What stands between the mark of its start and the end of a document: null if nothing does. -/
def content : Read Node := do
  let token ← peek
  if isDirective token || [.documentStart, .documentEnd, .streamEnd].contains token then pure .null
  else node true false (← enough)

/-- The documents from here on. The first one, and one behind the mark of an end, need no mark of
their start unless directives stand in front. -/
def documents (unmarked : Bool) : Nat → Read (List Node)
  | 0 => fail
  | fuel + 1 => do
    skipEnds
    let token ← peek
    if token = .streamEnd then pure []
    else
      modify fun r => { r with anchors := [] }
      let root ←
        if unmarked && !isDirective token && token != .documentStart then
          node true false (← enough)
        else do
          directives (← enough) false
          expect .documentStart
          content
      modify fun r => { r with handles := [] }
      let next ← peek
      if next = .documentEnd then skip
      else if isDirective next then fail
      pure (root :: (← documents (next = .documentEnd) fuel))

end Read

/-- The documents of a text, or `none` if it is not YAML. -/
def read? (text : String) : Option (List Node) := do
  let tokens ← tokens? text
  let start : Reading := ⟨tokens, [], [], [], 0⟩
  (·.1) <$> (Read.documents true (tokens.length + 1)).run start

end PocketShell.Yaml
