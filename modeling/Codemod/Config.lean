import Codemod.Path

/-!
# Configuration of a Run

Where to search, for which files, and whether to write. A run gets all of it
as a value and looks nothing up by itself.

## Main definitions

* `Config`: The settings of a run over a source tree.
* `Config.searchDir`: The directory that is searched.
* `Config.matchesExtension`: Which files count.
* `Config.reported`: What a path is called in a report.
-/

namespace Codemod

/-- The settings of a run over a source tree. -/
structure Config where
  /-- The root of the project, which reported paths are relative to. -/
  root : Path
  /-- The directory to search, under the root unless it is absolute. -/
  sourceDir : Path
  /-- The extension of the files to change, without its dot. -/
  extension : String
  /-- Whether to leave all files as they are. -/
  dryRun : Bool
deriving DecidableEq

namespace Config

/-- The source directory of a project that names none. -/
def defaultSourceDir : String := "lib"

/-- The extension of the files to change when none is named. -/
def defaultExtension : String := "dart"

def searchDir (c : Config) : Path := c.root.join c.sourceDir

/-- Whether a path has the extension of the files to change. -/
def matchesExtension (c : Config) (p : Path) : Bool :=
  p.extension? = some (Text.bytes c.extension.toList)

/-- A path as a report shows it, as seen from the root. -/
def reported (c : Config) (p : Path) : String := toString (p.relativeTo c.root)

end Config

end Codemod
