import PocketShell.Text
import PocketShell.Yaml.Lexer.State

/-!
# Anchors, tags and directives

An anchor names a node and an alias stands for a named node. A tag is either written out between
angle brackets or as a handle and a suffix, and directives give the handles their meaning.
-/

namespace PocketShell.Yaml

/-! ## Anchors -/

/-- The name of an anchor or alias, behind its sign. -/
def anchorName : Lex String := do
  Lex.content 1
  let name ← Lex.takeContent isAnchorName
  Lex.failIf name.isEmpty
  pure (String.ofList name)

/-! ## Tags -/

/-- The octet that a percent sign and two hexadecimal digits stand for. -/
def escapedOctet : Lex Nat := do
  let s ← get
  Lex.failIf (s.next != '%')
  match Text.hexDigit? (s.ahead 1), Text.hexDigit? (s.ahead 2) with
  | some high, some low => do
    Lex.content 3
    pure (16 * high + low)
  | _, _ => Lex.fail

/-- The character of an escape, which consists of as many octets as the first one announces for
UTF-8. Two octets denote the character that their digits number, and more denote none. -/
def uriEscape : Lex Char := do
  let first ← escapedOctet
  if first < 0x80 then pure (Char.ofNat first)
  else
    Lex.failIf (first < 0xC0 || 0xD8 ≤ first)
    let second ← escapedOctet
    Lex.failIf (second < 0x80 || 0xC0 ≤ second)
    pure (Char.ofNat (256 * first + second))

/-- The longest text of characters that satisfy `p`, continued from `text`. -/
def uriText (p : Char → Bool) : Nat → String → Lex String
  | 0, _ => Lex.fail
  | fuel + 1, text => do
    let c := (← get).next
    if !p c then pure text
    else if c == '%' then
      let d ← uriEscape
      uriText p fuel (text.push d)
    else
      Lex.content 1
      uriText p fuel (text.push c)

/-- The longest text of characters that satisfy `p`. -/
def uri (p : Char → Bool) : Lex String := do
  uriText p ((← get).rest.length + 1) ""

/-- A handle: an exclamation mark and a word, with another exclamation mark if there is one. -/
def tagHandle : Lex String := do
  Lex.failIf ((← get).next != '!')
  Lex.content 1
  let word ← Lex.takeWhile isWord
  if (← get).next == '!' then
    Lex.content 1
    pure (String.ofList ('!' :: word ++ ['!']))
  else pure (String.ofList ('!' :: word))

/-- Whether a handle is closed by a second exclamation mark. -/
def isClosedHandle (handle : String) : Bool :=
  2 ≤ handle.length && handle.toList.getLast? == some '!'

/-- The handle and suffix of a tag that is not written out. -/
def shortTag : Lex Token := do
  let handle ← tagHandle
  let suffix ← uri isTag
  if isClosedHandle handle then
    Lex.failIf suffix.isEmpty
    pure (.tag handle suffix)
  else
    let suffix := String.ofList (handle.toList.drop 1) ++ suffix
    pure (if suffix.isEmpty then .tag "" "!" else .tag "!" suffix)

/-- The token of a tag, which a blank has to follow, or the sign of a flow collection. -/
def tag : Lex Token := do
  let token ←
    if (← get).ahead 1 == '<' then do
      Lex.content 2
      let suffix ← uri isUri
      Lex.failIf ((← get).next != '>')
      Lex.content 1
      pure (.tag "" suffix)
    else shortTag
  let s ← get
  Lex.failIf (!(isBlankOrEnd s.next || (0 < s.flowLevel && isFlow s.next)))
  pure token

/-! ## Directives -/

/-- Takes one part of a version, which has one to nine digits. -/
def versionNumber : Lex Unit := do
  let digits ← Lex.takeContent Char.isDigit
  Lex.failIf (digits.isEmpty || 9 < digits.length)

/-- The token of a version directive, behind its name. -/
def versionDirective : Lex Token := do
  let _ ← Lex.takeWhile isBlank
  versionNumber
  Lex.failIf ((← get).next != '.')
  Lex.content 1
  versionNumber
  pure .versionDirective

/-- The token of a tag directive, behind its name. -/
def tagDirective : Lex Token := do
  let _ ← Lex.takeWhile isBlank
  let handle ← tagHandle
  Lex.failIf (handle != "!" && !isClosedHandle handle)
  let _ ← Lex.takeWhile isBlank
  let first := (← get).next
  Lex.failIf (first != '!' && !isTag first)
  let start ← uri isUri
  Lex.failIf (!isBlankOrEnd (← get).next)
  pure (.tagDirective handle start)

/-- The token of a directive and the line that it ends. A directive of another name says nothing,
like one for an empty handle. -/
def directive : Lex Token := do
  Lex.content 1
  let name ← Lex.takeWhile isWord
  Lex.failIf (name.isEmpty || !isBlankOrEnd (← get).next)
  let token ←
    match String.ofList name with
    | "YAML" => versionDirective
    | "TAG" => tagDirective
    | _ => do
      let _ ← Lex.takeLine
      pure (.tagDirective "" "")
  let _ ← Lex.skipToLineEnd true
  let s ← get
  Lex.failIf (!isBreakOrEnd s.next)
  if isBreak s.next then set s.forwardBreak
  pure token

end PocketShell.Yaml
