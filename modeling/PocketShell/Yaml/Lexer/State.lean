import PocketShell.Yaml.Token

/-!
# The state of the lexer

Besides its place in the text, the lexer keeps the open indentations, the nesting of flow
collections and, for each level of it, the token that may turn out to be a key: a key is recognised
only at the colon behind it, and its token is then put in front of those that have been produced
since.
-/

namespace PocketShell.Yaml

/-- A token that may turn out to be a key without a question mark in front. -/
structure SimpleKey where
  possible : Bool
  /-- Nothing but a key can stand there. -/
  required : Bool
  /-- How many tokens precede it. -/
  tokenNumber : Nat
  index : Nat
  line : Nat
  column : Nat

/-- An open indentation: the column to go back to, and whether a block ends with it. -/
structure Indentation where
  outer : Int
  endsBlock : Bool

/-- Whether the items of a flow sequence are being read plainly, or one of them as the single pair
of a mapping without braces, and at which nesting. -/
inductive SinglePair where
  | outside
  | inside (flowLevel : Nat)
  deriving DecidableEq

/-- The state of the lexer. -/
structure Lexer where
  rest : List Char
  index : Nat
  line : Nat
  column : Nat
  /-- The tokens so far, each with the column at which it starts. -/
  tokens : Array (Token × Nat)
  keyAllowed : Bool
  /-- The possible key of each flow level, the innermost first. -/
  keys : List SimpleKey
  indent : Int
  /-- The open indentations, the innermost first. -/
  indents : List Indentation
  flowLevel : Nat
  /-- Only blanks precede on the line. -/
  atLineStart : Bool
  /-- The last collection opened or key marked explicitly was one of a flow mapping. -/
  inFlowMapping : Bool
  /-- For each open flow sequence, the innermost first. -/
  singlePairs : List SinglePair
  /-- The place at which a colon may follow a key without a blank behind it. -/
  adjacentValueAt : Nat

/-- A step of the lexer, which fails on a text that is not YAML. -/
abbrev Lex := StateT Lexer Option

namespace Lexer

/-- No key is possible. -/
def noKey : SimpleKey :=
  ⟨false, false, 0, 0, 0, 0⟩

/-- The state before the first token of a text. -/
def start (text : List Char) : Lexer where
  rest := text
  index := 0
  line := 1
  column := 0
  tokens := #[]
  keyAllowed := true
  keys := [noKey]
  indent := -1
  indents := []
  flowLevel := 0
  atLineStart := true
  inFlowMapping := false
  singlePairs := []
  adjacentValueAt := 0

/-! ## The text -/

/-- The character at a distance from the place of the lexer. -/
def ahead (n : Nat) (s : Lexer) : Char :=
  s.rest.getD n endMark

/-- The next character. -/
def next (s : Lexer) : Char :=
  s.ahead 0

/-- Whether three of a character and then a blank or the end come next. -/
def nextIsTriple (c : Char) (s : Lexer) : Bool :=
  s.ahead 0 == c && s.ahead 1 == c && s.ahead 2 == c && isBlankOrEnd (s.ahead 3)

/-- Whether a mark between documents comes next. -/
def nextIsDocumentMark (s : Lexer) : Bool :=
  s.nextIsTriple '-' || s.nextIsTriple '.'

/-- The state behind `n` characters of one line. -/
def forward (n : Nat) (s : Lexer) : Lexer :=
  { s with rest := s.rest.drop n, index := s.index + n, column := s.column + n }

/-- The state behind `n` characters that are no blanks. -/
def forwardContent (n : Nat) (s : Lexer) : Lexer :=
  { s.forward n with atLineStart := false }

/-- The state behind a line break, of which a carriage return and line feed make one. -/
def forwardBreak (s : Lexer) : Lexer :=
  let n := if s.ahead 0 == '\r' && s.ahead 1 == '\n' then 2 else 1
  { s with
    rest := s.rest.drop n
    index := s.index + n
    line := s.line + 1
    column := 0
    atLineStart := true }

end Lexer

namespace Lex

/-- The text is not YAML. -/
def fail {α : Type} : Lex α :=
  fun _ => none

/-- Fails if the condition holds. -/
def failIf (condition : Bool) : Lex Unit :=
  if condition then fail else pure ()

/-- Takes `n` characters that are no blanks. -/
def content (n : Nat) : Lex Unit :=
  modify (Lexer.forwardContent n)

/-- Takes the characters that satisfy `p`, all of one line. -/
def takeWhile (p : Char → Bool) : Lex (List Char) := do
  let taken := (← get).rest.takeWhile p
  modify (Lexer.forward taken.length)
  pure taken

/-- Takes the characters that satisfy `p`, none of them blank. -/
def takeContent (p : Char → Bool) : Lex (List Char) := do
  let taken := (← get).rest.takeWhile p
  unless taken.isEmpty do content taken.length
  pure taken

/-- Takes what is left of the line. -/
def takeLine : Lex (List Char) :=
  takeWhile (!isBreakOrEnd ·)

/-- Takes blanks and then a comment, which needs a blank before it. The answer says whether there
were tabs and whether there were spaces. -/
def skipToLineEnd (tabs : Bool) : Lex (Bool × Bool) := do
  let blanks ← takeWhile fun c => c == ' ' || (tabs && c == '\t')
  if (← get).next == '#' then
    failIf blanks.isEmpty
    let _ ← takeLine
  pure (blanks.contains '\t', blanks.contains ' ')

/-! ## Tokens -/

/-- Adds a token that starts at a column. -/
def emitAt (column : Nat) (token : Token) : Lex Unit :=
  modify fun s => { s with tokens := s.tokens.push (token, column) }

/-- Adds a token that starts at the next character. -/
def emit (token : Token) : Lex Unit := do
  emitAt (← get).column token

/-- Puts a token in front of those after the first `n`. -/
def insert (n column : Nat) (token : Token) : Lex Unit :=
  modify fun s =>
    { s with
      tokens := (s.tokens.extract 0 n).push (token, column) ++ s.tokens.extract n s.tokens.size }

/-! ## Possible keys -/

/-- A key may follow. -/
def allowKey : Lex Unit :=
  modify fun s => { s with keyAllowed := true }

/-- No key may follow. -/
def disallowKey : Lex Unit :=
  modify fun s => { s with keyAllowed := false }

/-- Notes that the next token may turn out to be a key. It has to, if it stands at the indentation
of the block mapping at hand. -/
def saveKey : Lex Unit :=
  modify fun s =>
    if s.keyAllowed then
      let required := s.flowLevel == 0 && s.indent == (s.column : Int) &&
        (s.indents.head?.map (·.endsBlock)).getD false
      let key : SimpleKey := ⟨true, required, s.tokens.size, s.index, s.line, s.column⟩
      { s with keys := key :: s.keys.drop 1 }
    else s

/-- Gives up the possible key of this level. -/
def removeKey : Lex Unit := do
  match (← get).keys with
  | key :: outer =>
    failIf (key.possible && key.required)
    modify fun s => { s with keys := { key with possible := false } :: outer }
  | [] => fail

/-- Gives up the possible keys that are too far back: outside flow collections, a key has to stand
on the line of its colon and at most 1024 characters before it. -/
def dropStaleKeys : Lex Unit := do
  let s ← get
  let isStale (key : SimpleKey) : Bool :=
    key.possible && s.flowLevel == 0 && (key.line < s.line || key.index + 1024 < s.index)
  failIf (s.keys.any fun key => isStale key && key.required)
  let keys := s.keys.map fun key => if isStale key then { key with possible := false } else key
  set { s with keys }

/-! ## Indentation -/

/-- Takes back indentations that end no block. -/
def unrollInner : Lex Unit :=
  modify fun s =>
    let dropped := s.indents.takeWhile (!·.endsBlock)
    { s with
      indents := s.indents.drop dropped.length
      indent := (dropped.getLast?.map (·.outer)).getD s.indent }

/-- Opens an indentation by one column inside a block, which ends no block. -/
def indentInner : Lex Unit :=
  modify fun s =>
    if s.flowLevel == 0 && (s.indents.head?.map (·.endsBlock)).getD false then
      { s with indents := ⟨s.indent, false⟩ :: s.indents, indent := s.indent + 1 }
    else s

/-- Opens a block at a column further to the right. The token of its start goes behind the first
`place` tokens, or last. -/
def openBlock (column : Nat) (place : Option Nat) (token : Token) : Lex Unit := do
  let s ← get
  if s.flowLevel == 0 then
    if s.indent ≤ column then
      match s.indents with
      | ⟨outer, false⟩ :: indents => set { s with indent := outer, indents }
      | _ => pure ()
    let s ← get
    if s.indent < column then
      set { s with indents := ⟨s.indent, true⟩ :: s.indents, indent := column }
      match place with
      | some n => insert n column token
      | none => emitAt column token

/-- Closes the blocks that are indented further than a column. -/
def closeBlocks (column : Int) : List Indentation → Lex Unit
  | [] => pure ()
  | ⟨outer, endsBlock⟩ :: indents => do
    if column < (← get).indent then
      modify fun s => { s with indent := outer, indents }
      if endsBlock then emit .blockEnd
      closeBlocks column indents

/-- Closes the blocks that are indented further than a column, outside flow collections. -/
def unroll (column : Int) : Lex Unit := do
  let s ← get
  if s.flowLevel == 0 then closeBlocks column s.indents

end Lex

end PocketShell.Yaml
