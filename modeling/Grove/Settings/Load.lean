import Grove.Settings.Environment
import Grove.Settings.File

/-!
# `Grove.Settings.Load` — the settings of a run

Four layers, each over the one before: the standard settings, the global file, the local file in a given
directory, and the environment. A file that does not exist is no layer; one that cannot be read or does not make
sense is a fault even if later layers give everything. Only the outcome of all layers has to be in order.
-/

namespace Grove

/-! ## Places -/

/-- The home directory: the one the environment names, or else the account's. -/
def Host.home? (host : Host) : Option String :=
  match host.envVar? "HOME" with
  | some dir => if dir.isEmpty then host.accountHome else some dir
  | none => host.accountHome

/-- The directory for settings: the one the environment names, if by an absolute path, or else `.config` in the
    home directory. There is none without a home. -/
def Host.configDirectory? (host : Host) : Option String :=
  host.home?.map fun home =>
    match host.envVar? "XDG_CONFIG_HOME" with
    | some dir => if Path.isAbsolute dir then dir else Path.join home ".config"
    | none => Path.join home ".config"

namespace Settings

/-- The settings file that counts everywhere. -/
def globalPath? (host : Host) : Option String :=
  host.configDirectory?.map fun dir => Path.join (Path.join dir "arbor") "arbor.toml"

/-- The settings file of a directory. -/
def localPath (dir : String) : String :=
  Path.join dir ".arbor.toml"

/-- Every file that may give settings, with local settings from the given directory. -/
def paths (host : Host) (dir : Option String) : List String :=
  (globalPath? host).toList ++ (dir.map localPath).toList

/-! ## Layers -/

/-- The overlay in the file at a path. -/
def readLayer (host : Host) (path : String) : Except SettingsFault Overlay :=
  match host.look path with
  | .missing => .ok .empty
  | .unreadable reason => .error (.unreadable path reason)
  | .readable content =>
    match Overlay.ofText? content with
    | some overlay => .ok overlay
    | none => .error (.unparsable path)

/-- The overlay in a file whose place may be unknown. -/
def readLayer? (host : Host) : Option String → Except SettingsFault Overlay
  | none => .ok .empty
  | some path => readLayer host path

/-- The settings of a run that looks for a settings file in the given directory, if any. -/
def load (host : Host) (dir : Option String) : Except Problem Settings := do
  let fromGlobal ← (readLayer? host (globalPath? host)).mapError .settings
  let fromLocal ← (readLayer? host (dir.map localPath)).mapError .settings
  let fromEnvironment ← Overlay.ofEnvironment host
  (validate (((standard.merge fromGlobal).merge fromLocal).merge fromEnvironment)).mapError .settings

end Settings

end Grove
