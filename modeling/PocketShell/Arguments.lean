import PocketShell.Text

/-!
# Command-line arguments

A setting is named by a word behind two dashes or a letter behind one. Its value follows as the next
argument, behind an equals sign, or right behind the letter. Each setting can be given once, and no
other arguments are allowed.
-/

namespace PocketShell

/-- What is logged. -/
inductive LogLevel where
  | debug
  | info
  | warn
  | error
  | silent
  deriving DecidableEq, Repr

namespace LogLevel

/-- The name of a level. -/
def name : LogLevel → String
  | debug => "debug"
  | info => "info"
  | warn => "warn"
  | error => "error"
  | silent => "silent"

/-- All levels, the most talkative first. -/
def all : List LogLevel := [debug, info, warn, error, silent]

/-- The level of a name. -/
def ofName? (name : String) : Option LogLevel :=
  all.find? (·.name == name)

/-- The least severity that is logged, if anything is. -/
def severity? : LogLevel → Option String
  | debug => some "DEBUG"
  | info => some "INFO"
  | warn => some "WARN"
  | error => some "ERROR"
  | silent => none

end LogLevel

/-- What the command line says. -/
structure Arguments where
  logLevel : LogLevel
  root : String
  user? : Option String
  deriving DecidableEq, Repr

namespace Arguments

/-! ## Names -/

/-- A setting with a value. -/
inductive Setting where
  | logLevel
  | root
  | user
  deriving DecidableEq, Repr

/-- What an argument with a dash can name. -/
inductive Name where
  | setting (setting : Setting)
  | help
  | version
  deriving DecidableEq, Repr

/-- What a word behind two dashes names. -/
def Name.ofWord? : String → Option Name
  | "log-level" => some (setting .logLevel)
  | "root" => some (setting .root)
  | "user" => some (setting .user)
  | "help" => some help
  | "version" => some version
  | _ => none

/-- What a letter behind a dash names. -/
def Name.ofLetter? : Char → Option Name
  | 'l' => some (setting .logLevel)
  | 'r' => some (setting .root)
  | 'u' => some (setting .user)
  | 'h' => some help
  | 'V' => some version
  | _ => none

/-! ## Faults -/

/-- Why the command line sets nothing. -/
inductive Fault where
  | unknown (argument : String)
  /-- A value is missing or cannot be that of its setting. -/
  | invalidValue (setting : Setting)
  | repeated (setting : Setting)
  | unexpectedValue (name : Name)
  /-- Help is asked for. -/
  | help
  /-- The version is asked for. -/
  | version
  deriving DecidableEq, Repr

/-- The word behind two dashes that names a setting. -/
def Setting.word : Setting → String
  | logLevel => "log-level"
  | root => "root"
  | user => "user"

/-- The word behind two dashes. -/
def Name.word : Name → String
  | .setting named => named.word
  | .help => "help"
  | .version => "version"

/-- The wording of a fault. Asking for help or the version is answered elsewhere. -/
def Fault.message : Fault → String
  | unknown argument => "unexpected argument '" ++ argument ++ "'"
  | invalidValue setting => "invalid value for '--" ++ setting.word ++ "'"
  | repeated setting => "'--" ++ setting.word ++ "' cannot be used multiple times"
  | unexpectedValue name => "unexpected value for '--" ++ name.word ++ "'"
  | help | version => ""

/-- What help shows. -/
def usage : String :=
  Text.join "\n" ["A small simulated shell", "", "Usage: pocketshell [OPTIONS]", "", "Options:",
    "  -l, --log-level <LOG_LEVEL>  " ++ Text.join ", " (LogLevel.all.map LogLevel.name) ++
      " [default: warn]",
    "  -r, --root <ROOT>            Directory holding the config file and the saved sessions " ++
      "[default: .]",
    "  -u, --user <USER>            Session user, overrides the config file",
    "  -h, --help                   Print help", "  -V, --version                Print version"]

/-! ## Reading -/

/-- What has been read so far. -/
structure Reading where
  logLevel : Option LogLevel
  root : Option String
  user : Option String
  /-- The setting that an argument has named and the value that followed. -/
  pending : Option (Setting × Option String)
  deriving DecidableEq, Repr

namespace Reading

/-- Nothing has been read. -/
def start : Reading := ⟨none, none, none, none⟩

/-- Whether a setting has a value. -/
def has (reading : Reading) : Setting → Bool
  | .logLevel => reading.logLevel.isSome
  | .root => reading.root.isSome
  | .user => reading.user.isSome

/-- Gives a setting its value. -/
def set (reading : Reading) (setting : Setting) (value : String) : Except Fault Reading :=
  if reading.has setting then .error (.repeated setting)
  else
    match setting with
    | .logLevel =>
      match LogLevel.ofName? value with
      | some level => .ok { reading with logLevel := some level }
      | none => .error (.invalidValue setting)
    | .root =>
      if value.isEmpty then .error (.invalidValue setting)
      else .ok { reading with root := some value }
    | .user => .ok { reading with user := some value }

/-- Gives the pending setting its value. -/
def settle (reading : Reading) : Except Fault Reading :=
  match reading.pending with
  | none => .ok reading
  | some (setting, none) => .error (.invalidValue setting)
  | some (setting, some value) => { reading with pending := none }.set setting value

/-- Reads a name, with a value if one is attached to it. -/
def named (reading : Reading) (name : Name) (value : Option String) : Except Fault Reading :=
  match name, value with
  | .setting setting, none => do
    pure { ← reading.settle with pending := some (setting, none) }
  | .setting setting, some value => do (← reading.settle).set setting value
  | .help, none => reading.settle >>= fun _ => .error .help
  | .version, none => reading.settle >>= fun _ => .error .version
  | name, some _ => .error (.unexpectedValue name)

/-- The value attached to a letter: what follows it, without an equals sign in front. -/
def attached : List Char → Option String
  | [] => none
  | '=' :: cs => some (String.ofList cs)
  | cs => some (String.ofList cs)

/-- Reads a letter. The values of help and version are passed over. -/
def letter (reading : Reading) (name : Name) (behind : List Char) : Except Fault Reading :=
  match name with
  | .setting _ => reading.named name (attached behind)
  | _ => reading.named name none

/-- Reads an argument. -/
def argument (reading : Reading) (text : String) : Except Fault Reading :=
  match text.toList with
  | '-' :: '-' :: cs =>
    let word := cs.takeWhile (· != '=')
    let value := match cs.drop word.length with
      | [] => none
      | _ :: value => some (String.ofList value)
    match Name.ofWord? (String.ofList word) with
    | some name => reading.named name value
    | none => .error (.unknown text)
  | '-' :: c :: cs =>
    match Name.ofLetter? c with
    | some name => reading.letter name cs
    | none => .error (.unknown text)
  | _ =>
    match reading.pending with
    | some (setting, none) => .ok { reading with pending := some (setting, some text) }
    | _ => .error (.unknown text)

/-- Reads all arguments. Behind two dashes nothing may follow. -/
def all (reading : Reading) : List String → Except Fault Reading
  | [] => reading.settle
  | "--" :: [] => reading.settle
  | "--" :: text :: _ => .error (.unknown text)
  | text :: texts => do (← reading.argument text).all texts

end Reading

/-- What the arguments say, each setting with its default. -/
def parse (texts : List String) : Except Fault Arguments := do
  let reading ← Reading.start.all texts
  pure ⟨reading.logLevel.getD .warn, reading.root.getD ".", reading.user⟩

end Arguments

end PocketShell
