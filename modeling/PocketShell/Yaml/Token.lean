/-!
# Tokens of YAML

A YAML text is a run of tokens. The indentation of block collections is made explicit: their start
and end are tokens like the brackets of flow collections.
-/

namespace PocketShell.Yaml

/-! ## Characters -/

/-- What stands for the end of the text. No text that is read holds it. -/
def endMark : Char := '\x00'

/-- A line break, or a part of one. -/
def isBreak (c : Char) : Bool :=
  c == '\n' || c == '\r'

/-- A space or a tab. -/
def isBlank (c : Char) : Bool :=
  c == ' ' || c == '\t'

/-- Where a line ends. -/
def isBreakOrEnd (c : Char) : Bool :=
  isBreak c || c == endMark

/-- Where a word ends. -/
def isBlankOrEnd (c : Char) : Bool :=
  isBlank c || isBreakOrEnd c

/-- The brackets of flow collections and the comma between their items. -/
def isFlow (c : Char) : Bool :=
  c == ',' || c == '[' || c == ']' || c == '\x7b' || c == '\x7d'

/-- Characters of handles and of directive names. -/
def isWord (c : Char) : Bool :=
  c.isAlphanum || c == '_' || c == '-'

/-- Characters of anchor names. -/
def isAnchorName (c : Char) : Bool :=
  !isBlankOrEnd c && !isFlow c && c != '\uFEFF'

/-- Characters of a URI. -/
def isUri (c : Char) : Bool :=
  (isWord c && c != '_') || "#;/?:@&=+$,_.!~*'()[]%".toList.contains c

/-- Characters of a tag without its handle. -/
def isTag (c : Char) : Bool :=
  isUri c && !isFlow c && c != '!'

/-! ## Tokens -/

/-- A token. The tag of a node and that of a directive consist of a handle and what follows it. -/
inductive Token where
  | versionDirective
  | tagDirective (handle start : String)
  | documentStart
  | documentEnd
  | streamEnd
  | blockSequenceStart
  | blockMappingStart
  | blockEnd
  | flowSequenceStart
  | flowSequenceEnd
  | flowMappingStart
  | flowMappingEnd
  | blockEntry
  | flowEntry
  | key
  | value
  | alias (name : String)
  | anchor (name : String)
  | tag (handle suffix : String)
  | scalar (isPlain : Bool) (text : String)
  deriving DecidableEq, Repr

end PocketShell.Yaml
