import Codemod.Config
import Codemod.Report.Format
import Codemod.Text.Shown

/-!
# Command-Line Options

What a command line can set, how each option is spelled, and what may be wrong
with a word on it. An option is a setting, which takes a value, or a switch,
which does not, or the request for help.

## Main definitions

* `Options`: The settings of a command line.
* `Setting`, `Switch`, `OptionName`: The options there are.
* `OptionName.ofLong?`, `OptionName.ofShort?`: Their spellings.
* `OptionError`: Why a command line gives no settings.
* `Plan`, `Options.plan`: What a command line asks a run to do.
-/

namespace Codemod

/-- The settings of a command line. -/
structure Options where
  /-- The root of the project, if it is not the working directory. -/
  root : Option Path := none
  sourceDir : Path := .ofString Config.defaultSourceDir
  /-- The extension as given, with any dots that it starts with. -/
  extension : String := Config.defaultExtension
  dryRun : Bool := false
  format : ReportFormat := .text
  log : Bool := false
deriving DecidableEq

/-- An option that takes a value. -/
inductive Setting
  | root
  | sourceDir
  | extension
  | format
deriving DecidableEq, Repr

/-- An option that takes none. -/
inductive Switch
  | dryRun
  | log
deriving DecidableEq, Repr

/-- An option by its name. -/
inductive OptionName
  | setting (s : Setting)
  | switch (s : Switch)
  | help
deriving DecidableEq, Repr

/-- The long name of a setting, without its hyphens. -/
def Setting.long : Setting → String
  | .root => "root"
  | .sourceDir => "source-dir"
  | .extension => "extension"
  | .format => "format"

def Setting.valueName : Setting → String
  | .root => "ROOT"
  | .sourceDir => "SOURCE_DIR"
  | .extension => "EXTENSION"
  | .format => "FORMAT"

def Switch.long : Switch → String
  | .dryRun => "dry-run"
  | .log => "log"

namespace OptionName

/-- All options, in the order of the help text. -/
def all : List OptionName :=
  [.setting .root, .setting .sourceDir, .setting .extension, .switch .dryRun, .setting .format,
    .switch .log, .help]

/-- The long name of an option, without its hyphens. -/
def long : OptionName → String
  | .setting s => s.long
  | .switch s => s.long
  | .help => "help"

/-- The short name of an option, if it has one. -/
def short? : OptionName → Option Char
  | .setting .root => some 'C'
  | .setting .sourceDir => some 's'
  | .setting .extension => some 'e'
  | .setting .format => none
  | .switch .dryRun => some 'n'
  | .switch .log => some 'l'
  | .help => some 'h'

/-- How messages show an option. -/
def label : OptionName → String
  | .setting s => s!"--{s.long} <{s.valueName}>"
  | .switch s => s!"--{s.long}"
  | .help => "--help"

/-- The option with a long name, which may not be abbreviated. -/
def ofLong? (name : Text) : Option OptionName := all.find? fun o => o.long.toList = name

def ofShort? (c : Char) : Option OptionName := all.find? fun o => o.short? = some c

end OptionName

/-- Why a command line gives no settings. -/
inductive OptionError
  /-- A setting has no value, or an empty one that it cannot have. -/
  | valueRequired (s : Setting)
  /-- A setting does not have such a value. -/
  | invalidValue (s : Setting) (value : Text)
  /-- A word is no option and no value. -/
  | unexpectedWord (word : Text)
  /-- An option that takes no value has one. -/
  | unexpectedValue (o : OptionName) (value : Text)
  | repeated (o : OptionName)
  | helpRequested
deriving DecidableEq, Repr

def helpText : String := String.join [
  "Rewrite .withOpacity(x) calls to .withAlpha((x * 255).round())\n",
  "\n",
  "Usage: alphafix [OPTIONS]\n",
  "\n",
  "Options:\n",
  "  -C, --root <ROOT>              Project root; reported paths are relative to it (default: ",
    "current directory)\n",
  "  -s, --source-dir <SOURCE_DIR>  Source directory under the root to traverse [default: lib]\n",
  "  -e, --extension <EXTENSION>    Extension of files to rewrite, without the dot [default: ",
    "dart]\n",
  "  -n, --dry-run                  Report what would change without writing any file\n",
  "      --format <FORMAT>          Report format [default: text] [possible values: text, json]\n",
  "  -l, --log                      Also write the report to ",
    "logs/alphafix/<date>/run-<time>.log under the root\n",
  "  -h, --help                     Print help\n"]

namespace OptionError

/-- The message of an error. Nothing in a word that it repeats drives the
    terminal, and a sequence that the word leaves open ends with the word. -/
def message (m : Medium) (e : OptionError) : String :=
  let shownWord (word : Text) : String := String.ofList (word.shown m)
  match e with
  | .valueRequired s =>
    s!"error: a value is required for '{(OptionName.setting s).label}' but none was supplied"
  | .invalidValue s value =>
    s!"error: invalid value '{shownWord value}' for '{(OptionName.setting s).label}'"
  | .unexpectedWord word => s!"error: unexpected argument '{shownWord word}' found"
  | .unexpectedValue o value =>
    s!"error: unexpected value '{shownWord value}' for '{o.label}' found; no more were expected"
  | .repeated o => s!"error: the argument '{o.label}' cannot be used multiple times"
  | .helpRequested => helpText

/-- The status that a command ends with. Asking for help is no failure. -/
def exitCode : OptionError → Nat
  | .helpRequested => 0
  | _ => 2

end OptionError

/-- What a run is to do. -/
structure Plan where
  /-- The name that the log files are kept under. -/
  tool : String
  logRoot : Path
  logging : Bool
  format : ReportFormat
  config : Config
deriving DecidableEq

def toolName : String := "alphafix"

namespace Options

/-- The extension without the dots that it starts with. -/
def bareExtension (o : Options) : String :=
  String.ofList (o.extension.toList.dropWhile (· = '.'))

/-- The settings of a run in the directory `here`, which is the root of the
    project when the options name none. -/
def config (o : Options) (here : Path) : Config :=
  { root := o.root.getD here
    sourceDir := o.sourceDir
    extension := o.bareExtension
    dryRun := o.dryRun }

/-- The run that the options ask for in the directory `here`. -/
def plan (o : Options) (here : Path) : Plan :=
  { tool := toolName
    logRoot := (o.config here).root
    logging := o.log
    format := o.format
    config := o.config here }

end Options

end Codemod
