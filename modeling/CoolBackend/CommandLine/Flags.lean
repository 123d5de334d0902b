import CoolBackend.Text.Integer
import CoolBackend.Text.Quoted

/-!
Flags stand in front of the file arguments, with one dash or two. A flag that switches something on
takes a value only behind an equals sign; any other flag takes the next argument if it has no equals
sign. Two dashes alone end the flags.
-/
namespace CoolBackend.CommandLine

structure Flags where
  output : String := ""
  database : String := ""
  gc : String := ""
  gcTest : Bool := false
  verify : Bool := false
  layout : Bool := false
  verbosity : Int := 0
  directory : String := "."
  deriving DecidableEq, Repr

inductive FlagError where
  | badForm (argument : String)
  | undefined (name : String)
  | needsArgument (name : String)
  | badValue (value name : String) (fault : Text.IntegerFault)
  | badSwitch (value name : String)
  deriving DecidableEq, Repr

def FlagError.message : FlagError → String
  | badForm argument => s!"bad flag syntax: {argument}"
  | undefined name => s!"flag provided but not defined: -{name}"
  | needsArgument name => s!"flag needs an argument: -{name}"
  | badValue value name fault =>
    s!"invalid value {Text.quoted value} for flag -{name}: {fault.message}"
  | badSwitch value name => s!"invalid boolean value {Text.quoted value} for -{name}: parse error"

inductive Setting where
  | switch (set : Bool → Flags → Flags)
  | text (set : String → Flags → Flags)
  | number (set : Int → Flags → Flags)

def setting? : String → Option Setting
  | "o" => some (.text fun value flags => { flags with output := value })
  | "db" => some (.text fun value flags => { flags with database := value })
  | "gc" => some (.text fun value flags => { flags with gc := value })
  | "gc-test" => some (.switch fun value flags => { flags with gcTest := value })
  | "verify" => some (.switch fun value flags => { flags with verify := value })
  | "layout" => some (.switch fun value flags => { flags with layout := value })
  | "v" => some (.number fun value flags => { flags with verbosity := value })
  | "C" => some (.text fun value flags => { flags with directory := value })
  | _ => none

def readSwitch? (value : String) : Option Bool :=
  if ["1", "t", "T", "TRUE", "true", "True"].contains value then some true
  else if ["0", "f", "F", "FALSE", "false", "False"].contains value then some false
  else none

inductive Argument where
  | file
  | endOfFlags
  | flag (name : String) (value : Option String)
  | malformed
  deriving DecidableEq, Repr

/-- Splits a flag at its equals sign, which is never its first character. -/
def splitFlag (text : List Char) : Argument :=
  match text with
  | [] => .malformed
  | first :: rest =>
    if first = '-' || first = '=' then .malformed
    else
      let name := String.ofList (first :: rest.takeWhile (· ≠ '='))
      match rest.dropWhile (· ≠ '=') with
      | [] => .flag name none
      | _ :: value => .flag name (some (String.ofList value))

def classify (argument : String) : Argument :=
  match argument.toList with
  | ['-', '-'] => .endOfFlags
  | '-' :: '-' :: text => splitFlag text
  | ['-'] => .file
  | '-' :: text => splitFlag text
  | _ => .file

inductive Request where
  | run (flags : Flags) (files : List String)
  | help
  | reject (error : FlagError)
  deriving DecidableEq, Repr

def Setting.apply (name value : String) (flags : Flags) : Setting → Except FlagError Flags
  | switch set =>
    match readSwitch? value with
    | some on => .ok (set on flags)
    | none => .error (.badSwitch value name)
  | text set => .ok (set value flags)
  | number set =>
    match Text.readInteger value with
    | .ok n => .ok (set n flags)
    | .error fault => .error (.badValue value name fault)

def Setting.implicit? : Setting → Option String
  | switch _ => some "true"
  | text _ | number _ => none

def parse (flags : Flags) : List String → Request
  | [] => .run flags []
  | argument :: rest =>
    match classify argument with
    | .file => .run flags (argument :: rest)
    | .endOfFlags => .run flags rest
    | .malformed => .reject (.badForm argument)
    | .flag name given =>
      match setting? name with
      | none => if name = "help" ∨ name = "h" then .help else .reject (.undefined name)
      | some setting =>
        match given <|> setting.implicit? with
        | some value =>
          match setting.apply name value flags with
          | .ok flags => parse flags rest
          | .error e => .reject e
        | none =>
          match rest with
          | [] => .reject (.needsArgument name)
          | value :: rest =>
            match setting.apply name value flags with
            | .ok flags => parse flags rest
            | .error e => .reject e

def usage : String :=
  "\n".intercalate [
    "Usage: coolgen [options] [file.ast ...]",
    "",
    "Compiles type-checked COOL programs to MIPS assembly for SPIM.",
    "Without file arguments, sources are taken from coolgen.toml.",
    "",
    "Options:",
    "  -C string",
    "    \tDirectory to search for coolgen.toml (default \".\")",
    "  -db string",
    "    \tWrite class layouts to this SQLite database",
    "  -gc string",
    "    \tGarbage collector: none, generational, stop-and-copy",
    "  -gc-test",
    "    \tCollect on every allocation",
    "  -layout",
    "    \tPrint class layouts instead of assembly",
    "  -o string",
    "    \tAssembly output file (default: manifest or stdout)",
    "  -v int",
    "    \tLog verbosity (0-4)",
    "  -verify",
    "    \tCheck AST preconditions before compiling",
    "",
    "Examples:",
    "  coolgen hello.ast                 # Assembly to stdout",
    "  coolgen -o hello.s -gc generational hello.ast",
    "  coolgen -layout hello.ast         # Show tags, offsets and slots",
    "  coolgen -C ./project              # Build from coolgen.toml",
    ""]

end CoolBackend.CommandLine
