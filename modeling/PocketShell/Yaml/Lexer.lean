import PocketShell.Yaml.Lexer.Scalar
import PocketShell.Yaml.Lexer.Tag

/-!
# From a text to its tokens
-/

namespace PocketShell.Yaml

namespace Lex

/-! ## Between tokens -/

/-- Takes blanks, line breaks and comments up to the next token. Tabs may not indent a token of a
block. -/
def skipToToken : Nat → Lex Unit
  | 0 => fail
  | fuel + 1 => do
    let s ← get
    if s.next == '\t' && !s.indents.isEmpty && s.atLineStart && s.column < s.indent then
      let _ ← skipToLineEnd true
      failIf (!isBreakOrEnd (← get).next)
      skipToToken fuel
    else if isBlank s.next then
      set (s.forward 1)
      skipToToken fuel
    else if isBreak s.next then
      set s.forwardBreak
      if s.flowLevel == 0 then allowKey
      skipToToken fuel
    else if s.next == '#' then
      let _ ← takeLine
      skipToToken fuel
    else pure ()

/-- Takes what separates an explicit key from its question mark: spaces, line breaks and comments,
and not comments alone. -/
def skipBehindKey : Nat → Bool → Lex Unit
  | 0, _ => fail
  | fuel + 1, separated => do
    let s ← get
    if s.next == ' ' then
      set (s.forward 1)
      skipBehindKey fuel true
    else if isBreak s.next then
      set s.forwardBreak
      if s.flowLevel == 0 then allowKey
      skipBehindKey fuel true
    else if s.next == '#' then
      let _ ← takeLine
      skipBehindKey fuel separated
    else failIf (!separated || s.next == '\t')

/-- Gives up the possible key and forbids one until further notice. -/
def endKey : Lex Unit := do
  removeKey
  disallowKey

/-- A key may follow in a block, and not in a flow collection. -/
def allowKeyInBlock : Lex Unit :=
  modify fun s => { s with keyAllowed := s.flowLevel == 0 }

/-! ## Documents -/

/-- The end of the text. -/
def endStream : Lex Unit := do
  failIf ((← get).keys.any fun key => key.possible && key.required)
  unroll (-1)
  endKey
  emit .streamEnd

/-- A mark between documents. -/
def documentMark (token : Token) : Lex Unit := do
  unroll (-1)
  endKey
  emit token
  content 3

/-- The mark at the end of a document, behind which its line is empty. -/
def documentEndMark : Lex Unit := do
  documentMark .documentEnd
  let _ ← skipToLineEnd true
  failIf (!isBreakOrEnd (← get).next)

/-! ## Flow collections -/

/-- The deepest nesting of flow collections. -/
def flowLevelLimit : Nat := 255

/-- The opening bracket of a flow collection. -/
def startFlow (token : Token) : Lex Unit := do
  saveKey
  indentInner
  failIf ((← get).flowLevel == flowLevelLimit)
  modify fun s => { s with keys := Lexer.noKey :: s.keys, flowLevel := s.flowLevel + 1 }
  allowKey
  emit token
  content 1
  modify fun s =>
    if token = .flowMappingStart then { s with inFlowMapping := true }
    else { s with singlePairs := .outside :: s.singlePairs }
  let _ ← skipToLineEnd true

/-- Ends the mapping of a single pair, if the items of this flow sequence stand in one. -/
def endSinglePair : Lex Unit := do
  let s ← get
  match s.singlePairs with
  | .inside level :: outer =>
    if level = s.flowLevel then
      set { s with inFlowMapping := false, singlePairs := .outside :: outer }
      emit .flowMappingEnd
  | _ => pure ()

/-- The closing bracket of a flow collection. -/
def endFlow (token : Token) : Lex Unit := do
  failIf ((← get).flowLevel == 0)
  removeKey
  if token = .flowSequenceEnd then
    endSinglePair
    modify fun s => { s with singlePairs := s.singlePairs.drop 1 }
  modify fun s => { s with keys := s.keys.drop 1, flowLevel := s.flowLevel - 1 }
  disallowKey
  emit token
  content 1
  let _ ← skipToLineEnd true
  modify fun s => if 0 < s.flowLevel then { s with adjacentValueAt := s.index } else s

/-- A comma between the items of a flow collection. -/
def flowItem : Lex Unit := do
  removeKey
  allowKey
  endSinglePair
  emit .flowEntry
  content 1
  let _ ← skipToLineEnd true

/-! ## Block collections -/

/-- The dash in front of an item. It may not be indented like an anchor or tag at the start of the
line before, within a block. -/
def blockItem : Lex Unit := do
  let s ← get
  failIf (0 < s.flowLevel || !s.keyAllowed)
  match s.tokens.back? with
  | some (.anchor _, 0) | some (.tag _ _, 0) => failIf (s.column == 0 && -1 < s.indent)
  | _ => pure ()
  content 1
  openBlock s.column none .blockSequenceStart
  let (tabs, _) ← skipToLineEnd true
  let next ← get
  failIf (tabs && next.next == '-' && isBlankOrEnd (next.ahead 1))
  if isBreak next.next || isFlow next.next then indentInner
  removeKey
  allowKey
  emit .blockEntry

/-- The question mark in front of an explicit key. -/
def explicitKey : Lex Unit := do
  let s ← get
  if s.flowLevel == 0 then
    failIf (!s.keyAllowed)
    openBlock s.column none .blockMappingStart
  else
    set { s with inFlowMapping := true }
  removeKey
  allowKeyInBlock
  content 1
  skipBehindKey (s.rest.length + 1) false
  emit .key

/-! ## Values -/

/-- Takes the colon in front of a value. Tabs alone do not set off a value in a block. -/
def takeColon : Lex Unit := do
  content 1
  if (← get).next == '\t' then
    let (_, spaces) ← skipToLineEnd true
    let c := (← get).next
    failIf (!spaces && isWord c)

/-- The colon in front of a value. Its key is the possible key at hand if there is one, and
otherwise an explicit or an empty one. -/
def mappingValue : Lex Unit := do
  let s ← get
  let key := s.keys.headD Lexer.noKey
  let isSinglePair := !s.singlePairs.isEmpty && !s.inFlowMapping
  if isSinglePair then
    set { s with singlePairs := .inside s.flowLevel :: s.singlePairs.drop 1 }
  takeColon
  if key.possible then
    insert key.tokenNumber key.column .key
    if isSinglePair then
      failIf (key.line < s.line)
      insert key.tokenNumber key.column .flowMappingStart
    openBlock key.column (some key.tokenNumber) .blockMappingStart
    indentInner
    modify fun s => { s with keys := { key with possible := false } :: s.keys.drop 1 }
    disallowKey
  else
    if isSinglePair then emit .flowMappingStart
    if s.flowLevel == 0 then
      failIf (!s.keyAllowed)
      openBlock s.column none .blockMappingStart
    indentInner
    allowKeyInBlock
  emit .value

/-- A colon in a flow collection without a blank behind it. A nested collection may follow it only
where its key is marked off by a bracket or quote. -/
def adjacentValue : Lex Unit := do
  let s ← get
  let c := s.ahead 1
  failIf (s.index != s.adjacentValueAt && (c == '[' || c == '\x7b'))
  mappingValue

/-! ## Nodes -/

/-- A token that may turn out to be a key, or the start of one. -/
def keyLike (read : Lex Token) : Lex Unit := do
  let column := (← get).column
  saveKey
  disallowKey
  let token ← read
  emitAt column token

/-- A quoted scalar. A colon right behind it sets off its value in a flow collection. -/
def quoted (single : Bool) : Lex Unit := do
  keyLike (quotedScalar single)
  skipToToken ((← get).rest.length + 1)
  modify fun s => { s with adjacentValueAt := s.index }

/-- A block of lines, which is no key. -/
def block (literal : Bool) : Lex Unit := do
  saveKey
  allowKey
  let token ← blockScalar literal
  emit token

/-! ## Steps -/

/-- The token that starts with the next character. -/
def token : Lex Unit := do
  let s ← get
  let inFlow := 0 < s.flowLevel
  let behind := s.ahead 1
  let isSign := isBlankOrEnd behind
  match s.next with
  | '[' => startFlow .flowSequenceStart
  | '\x7b' => startFlow .flowMappingStart
  | ']' => endFlow .flowSequenceEnd
  | '\x7d' => endFlow .flowMappingEnd
  | ',' => flowItem
  | '-' => if isSign then blockItem else keyLike plainScalar
  | '?' => if isSign then explicitKey else keyLike plainScalar
  | ':' =>
    if isSign then mappingValue
    else if inFlow && (isFlow behind || s.index == s.adjacentValueAt) then adjacentValue
    else keyLike plainScalar
  | '*' => keyLike (.alias <$> anchorName)
  | '&' => keyLike (.anchor <$> anchorName)
  | '!' => keyLike tag
  | '|' => if inFlow then keyLike plainScalar else block true
  | '>' => if inFlow then keyLike plainScalar else block false
  | '\'' => quoted true
  | '"' => quoted false
  | '%' | '@' | '\x60' => fail
  | _ => keyLike plainScalar

/-- Reads what comes next. The answer says whether the text goes on. -/
def step : Lex Bool := do
  skipToToken ((← get).rest.length + 1)
  dropStaleKeys
  unroll (← get).column
  let s ← get
  if s.rest.isEmpty then
    endStream
    pure false
  else
    if s.column == 0 && s.next == '%' then
      unroll (-1)
      endKey
      let token ← directive
      emit token
    else if s.column == 0 && s.nextIsTriple '-' then documentMark .documentStart
    else if s.column == 0 && s.nextIsTriple '.' then documentEndMark
    else
      failIf (s.column < s.indent)
      token
    pure true

/-- Reads the text to its end. Each step takes at least one character. -/
def steps : Nat → Lex Unit
  | 0 => fail
  | fuel + 1 => do
    if ← step then steps fuel

end Lex

/-- The tokens of a text, or `none` if it is not YAML. A NUL character ends the text. -/
def tokens? (text : String) : Option (List Token) :=
  let text := text.toList.takeWhile (· != endMark)
  (Lex.steps (text.length + 1)).run (Lexer.start text) |>.map fun (_, s) =>
    s.tokens.toList.map Prod.fst

end PocketShell.Yaml
