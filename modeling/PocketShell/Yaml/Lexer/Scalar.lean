import PocketShell.Text
import PocketShell.Yaml.Lexer.State

/-!
# Scalars

A scalar is plain, in quotes of either kind, or a block of lines. Line breaks within a plain or
quoted scalar are folded: one break reads as a space, and of more the first is dropped.
-/

namespace PocketShell.Yaml

/-- What `n` line breaks within a scalar read as. -/
def folded (n : Nat) : String :=
  if n = 1 then " " else String.ofList (List.replicate (n - 1) '\n')

/-! ## Plain scalars -/

/-- Whether a character can go on a plain scalar, given the one after it. -/
def isPlainBefore (inFlow : Bool) (c next : Char) : Bool :=
  if c == ':' && (isBlankOrEnd next || (inFlow && isFlow next)) then false
  else !(inFlow && isFlow c)

/-- The characters of a plain scalar up to a blank or its end. -/
def plainRun (inFlow : Bool) : List Char → List Char
  | [] => []
  | c :: cs =>
    if !isBlankOrEnd c && isPlainBefore inFlow c (cs.getD 0 endMark) then
      c :: plainRun inFlow cs
    else []

/-- The blanks and line breaks after a stretch of a plain scalar: the blanks on its line and the
number of breaks. A tab may not take part in the indentation of a line with content. -/
def plainGap (indent : Int) : Nat → String → Nat → Lex (String × Nat)
  | 0, _, _ => Lex.fail
  | fuel + 1, blanks, breaks => do
    let s ← get
    if isBlank s.next then
      if !s.atLineStart then
        set (s.forward 1)
        plainGap indent fuel (blanks.push s.next) breaks
      else if s.column < indent && s.next == '\t' then
        let _ ← Lex.skipToLineEnd true
        Lex.failIf (!isBreakOrEnd (← get).next)
        plainGap indent fuel blanks breaks
      else
        set (s.forward 1)
        plainGap indent fuel blanks breaks
    else if isBreak s.next then
      set s.forwardBreak
      plainGap indent fuel "" (breaks + 1)
    else pure (blanks, breaks)

/-- The text of a plain scalar, continued from `text`, which the given gap follows. -/
def plainText (indent : Int) : Nat → String → String → Nat → Lex String
  | 0, _, _, _ => Lex.fail
  | fuel + 1, text, blanks, breaks => do
    let s ← get
    let inFlow := 0 < s.flowLevel
    if (s.atLineStart && s.nextIsDocumentMark) || s.next == '#' then pure text
    else
      Lex.failIf (inFlow && s.next == '-' && isFlow (s.ahead 1))
      let run := plainRun inFlow s.rest
      let gap := if breaks = 0 then blanks else folded breaks
      let text := if run.isEmpty then text else text ++ gap ++ String.ofList run
      unless run.isEmpty do Lex.content run.length
      let s ← get
      if !(isBlank s.next || isBreak s.next) then pure text
      else
        let unfinished := if run.isEmpty then (blanks, breaks) else ("", 0)
        let (blanks, breaks) ← plainGap indent (s.rest.length + 1) unfinished.1 unfinished.2
        let s ← get
        if s.flowLevel == 0 && s.column < indent then pure text
        else plainText indent fuel text blanks breaks

/-- The token of a plain scalar. -/
def plainScalar : Lex Token := do
  Lex.unrollInner
  let s ← get
  let indent := s.indent + 1
  Lex.failIf (0 < s.flowLevel && s.column < indent)
  let text ← plainText indent (s.rest.length + 1) "" "" 0
  if (← get).atLineStart then Lex.allowKey
  Lex.failIf text.isEmpty
  pure (.scalar true text)

/-! ## Quoted scalars -/

/-- The character that a letter behind a backslash denotes. -/
def shortEscape? : Char → Option Char
  | '0' => some '\x00'
  | 'a' => some '\x07'
  | 'b' => some '\x08'
  | 't' | '\t' => some '\t'
  | 'n' => some '\n'
  | 'v' => some '\x0B'
  | 'f' => some '\x0C'
  | 'r' => some '\r'
  | 'e' => some '\x1B'
  | ' ' => some ' '
  | '"' => some '"'
  | '/' => some '/'
  | '\\' => some '\\'
  | 'N' => some '\u0085'
  | '_' => some '\u00A0'
  | 'L' => some '\u2028'
  | 'P' => some '\u2029'
  | _ => none

/-- How many hexadecimal digits follow a letter behind a backslash. -/
def codeLength? : Char → Option Nat
  | 'x' => some 2
  | 'u' => some 4
  | 'U' => some 8
  | _ => none

/-- Takes an escape and answers with its character. -/
def escapeSequence : Lex Char := do
  let letter := (← get).ahead 1
  Lex.content 2
  match shortEscape? letter, codeLength? letter with
  | some c, _ => pure c
  | none, some n =>
    let digits := (← get).rest.take n
    Lex.failIf (digits.length < n)
    match Text.number? Text.hexDigit? 16 digits with
    | some code =>
      Lex.failIf (!(code < 0xD800 || (0xE000 ≤ code && code < 0x110000)))
      Lex.content n
      pure (Char.ofNat code)
    | none => Lex.fail
  | none, none => Lex.fail

/-- Takes the characters of a quoted scalar up to a blank, a break or the closing quote. The answer
also says whether they end with an escaped line break. -/
def quotedRun (single : Bool) : Nat → String → Lex (String × Bool)
  | 0, _ => Lex.fail
  | fuel + 1, text => do
    let s ← get
    let c := s.next
    if isBlankOrEnd c then pure (text, false)
    else if single && c == '\'' && s.ahead 1 == '\'' then
      Lex.content 2
      quotedRun single fuel (text.push '\'')
    else if c == (if single then '\'' else '"') then pure (text, false)
    else if !single && c == '\\' && isBreak (s.ahead 1) then
      Lex.content 1
      modify Lexer.forwardBreak
      pure (text, true)
    else if !single && c == '\\' then
      let d ← escapeSequence
      quotedRun single fuel (text.push d)
    else
      Lex.content 1
      quotedRun single fuel (text.push c)

/-- The blanks and line breaks within a quoted scalar: the blanks before the first break and the
number of breaks. -/
def quotedGap : Nat → Bool → String → Nat → Lex (String × Nat)
  | 0, _, _, _ => Lex.fail
  | fuel + 1, leading, blanks, breaks => do
    let s ← get
    if isBlank s.next then
      Lex.failIf (leading && s.next == '\t' && s.column < s.indent)
      set (s.forward 1)
      quotedGap fuel leading (if leading then blanks else blanks.push s.next) breaks
    else if isBreak s.next then
      set s.forwardBreak
      quotedGap fuel true "" (breaks + 1)
    else pure (blanks, breaks)

/-- The text of a quoted scalar, continued from `text`, up to its closing quote. -/
def quotedText (single : Bool) : Nat → String → Lex String
  | 0, _ => Lex.fail
  | fuel + 1, text => do
    let s ← get
    Lex.failIf (s.column == 0 && s.nextIsDocumentMark)
    Lex.failIf (s.rest.isEmpty || s.column < s.indent)
    let (text, escaped) ← quotedRun single (s.rest.length + 1) text
    let s ← get
    if s.next == (if single then '\'' else '"') then pure text
    else
      let (blanks, breaks) ← quotedGap (s.rest.length + 1) escaped "" 0
      let gap :=
        if escaped then String.ofList (List.replicate breaks '\n')
        else if breaks = 0 then blanks else folded breaks
      quotedText single fuel (text ++ gap)

/-- The token of a quoted scalar. Behind it, its line may only end, or go on as a flow collection
or behind a colon. -/
def quotedScalar (single : Bool) : Lex Token := do
  let start ← get
  Lex.content 1
  let text ← quotedText single (start.rest.length + 1) ""
  Lex.content 1
  let _ ← Lex.skipToLineEnd true
  let s ← get
  let inFlow := 0 < s.flowLevel
  let c := s.next
  let goesOn :=
    isBreakOrEnd c || (inFlow && (c == ',' || c == '\x7d' || c == ']' || c == ':')) ||
      (c == ':' && start.line == s.line)
  Lex.failIf (!goesOn)
  pure (.scalar false text)

/-! ## Block scalars -/

/-- What becomes of the line breaks at the end of a block. -/
inductive Chomping where
  | strip
  | clip
  | keep
  deriving DecidableEq

/-- The chomping that a sign asks for. -/
def chomping? (c : Char) : Option Chomping :=
  if c == '+' then some .keep else if c == '-' then some .strip else none

/-- Takes a sign if it is next. -/
def takeChomping : Lex (Option Chomping) := do
  let found := chomping? (← get).next
  if found.isSome then Lex.content 1
  pure found

/-- Takes a digit from one to nine if it is next; zero is refused. -/
def takeIncrement : Lex (Option Nat) := do
  let c := (← get).next
  if c.isDigit then
    Lex.failIf (c == '0')
    Lex.content 1
    pure (some (c.toNat - '0'.toNat))
  else pure none

/-- Takes the sign and the digit of a block's heading, in either order. -/
def blockHeading : Lex (Chomping × Option Nat) := do
  match ← takeChomping with
  | some chomping => pure (chomping, ← takeIncrement)
  | none =>
    match ← takeIncrement with
    | some increment => pure ((← takeChomping).getD .clip, some increment)
    | none => pure (.clip, none)

/-- Takes spaces up to a column, over any number of empty lines, and counts the line breaks. -/
def skipIndent (indent : Nat) : Nat → Nat → Lex Nat
  | 0, _ => Lex.fail
  | fuel + 1, breaks => do
    let s ← get
    let spaces := ((s.rest.take (indent - s.column)).takeWhile (· == ' ')).length
    set (s.forward spaces)
    let s ← get
    if isBreak s.next then
      set s.forwardBreak
      skipIndent indent fuel (breaks + 1)
    else pure breaks

/-- Takes all spaces, over any number of empty lines. The answer is the furthest column reached
and the number of line breaks. -/
def skipFirstIndent : Nat → Nat → Nat → Lex (Nat × Nat)
  | 0, _, _ => Lex.fail
  | fuel + 1, furthest, breaks => do
    let _ ← Lex.takeWhile (· == ' ')
    let s ← get
    let furthest := max furthest s.column
    if isBreak s.next then
      set s.forwardBreak
      skipFirstIndent fuel furthest (breaks + 1)
    else pure (furthest, breaks)

/-- The lines of a block so far: its text, whether a break follows it, how many more follow that,
and whether the last line started with a blank. -/
structure BlockText where
  text : String
  lineBroken : Bool
  emptyLines : Nat
  startedBlank : Bool

/-- Line feeds. -/
def lineFeeds (n : Nat) : String :=
  String.ofList (List.replicate n '\n')

/-- What joins the lines so far to a next one. A folded block joins two lines by a space, unless
one of them starts with a blank or empty lines stand between them. -/
def BlockText.joint (literal nextBlank : Bool) (block : BlockText) : String :=
  if !literal && block.lineBroken && !block.startedBlank && !nextBlank then
    if block.emptyLines = 0 then " " else lineFeeds block.emptyLines
  else (if block.lineBroken then "\n" else "") ++ lineFeeds block.emptyLines

/-- Takes the lines of a block that are indented to a column. -/
def blockLines (literal : Bool) (indent : Nat) : Nat → BlockText → Lex BlockText
  | 0, _ => Lex.fail
  | fuel + 1, block => do
    let s ← get
    if s.column != indent || s.rest.isEmpty || (indent == 0 && s.nextIsTriple '.') then pure block
    else
      let nextBlank := isBlank s.next
      let joint := block.joint literal nextBlank
      let line ← Lex.takeLine
      let text := block.text ++ joint ++ String.ofList line
      if (← get).rest.isEmpty then pure ⟨text, false, 0, nextBlank⟩
      else
        modify Lexer.forwardBreak
        let empty ← skipIndent indent ((← get).rest.length + 1) 0
        blockLines literal indent fuel ⟨text, true, empty, nextBlank⟩

/-- The token of a block scalar. -/
def blockScalar (literal : Bool) : Lex Token := do
  let start ← get
  Lex.content 1
  Lex.unrollInner
  let (chomping, increment) ← blockHeading
  let _ ← Lex.skipToLineEnd true
  let s ← get
  Lex.failIf (!isBreakOrEnd s.next)
  let broken := isBreak s.next
  if broken then set s.forwardBreak
  let s ← get
  Lex.failIf (s.next == '\t')
  let fuel := s.rest.length + 1
  let (indent, empty) ← match increment with
    | some n => do
      let indent := n + s.indent.toNat
      pure (indent, ← skipIndent indent fuel 0)
    | none => do
      let (furthest, empty) ← skipFirstIndent fuel 0 0
      pure (max (max furthest (s.indent + 1).toNat) (if 0 < s.indent then 1 else 0), empty)
  let s ← get
  if s.rest.isEmpty then
    let text := match chomping with
      | .strip => ""
      | .clip => if s.line == start.line then "" else lineFeeds (if broken then 1 else 0)
      | .keep =>
        if s.line == start.line then ""
        else if empty = 0 then lineFeeds (if broken then 1 else 0) else lineFeeds empty
    pure (.scalar false text)
  else
    Lex.failIf (s.column < indent && s.indent < s.column)
    let block ← blockLines literal indent fuel ⟨"", false, empty, false⟩
    let s ← get
    let last :=
      (if block.lineBroken then "\n" else "") ++
        (if s.rest.isEmpty && max indent 1 ≤ s.column then "\n" else "")
    let text := match chomping with
      | .strip => block.text
      | .clip => block.text ++ last
      | .keep => block.text ++ last ++ lineFeeds block.emptyLines
    pure (.scalar false text)

end PocketShell.Yaml
