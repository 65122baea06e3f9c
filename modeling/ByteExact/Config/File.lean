import ByteExact.Attempt
import ByteExact.Config.Toml
/-!
# Configuration files

What a path can lead to, and loading and saving a configuration there. Saving replaces the content
of a file or makes a new one; a configuration that cannot be written as a document leaves the path
as it was.
-/
namespace ByteExact.Config

/-- What stands at a path. -/
inductive Place
  /-- Nothing yet, in a directory that exists. -/
  | vacant
  | file (content : ByteArray)
  | directory
  /-- Nothing, and no directory to hold it. -/
  | unreachable

namespace Place

/-- What stands at the path after `content` is written to it, unless that fails. -/
def write? (content : ByteArray) : Place → Option Place
  | vacant | file _ => some (file content)
  | directory | unreachable => none

/-- The content as text, where there is a file of text. -/
def text? : Place → Option String
  | file content => String.fromUTF8? content
  | _ => none

theorem text?_file (text : String) : (file text.toUTF8).text? = some text := by
  have hvalid : text.toUTF8.IsValidUTF8 := text.isValidUTF8
  rw [text?, String.fromUTF8?, dif_pos hvalid]
  rfl

end Place

/-- Load the configuration that a path leads to (`from_file`). -/
def load (toml : Toml.Backend) : Place → Except Error Config
  | .vacant | .unreachable => .error (.config .cannotOpen)
  | .directory => .error (.config .cannotRead)
  | .file content =>
    match String.fromUTF8? content with
    | none => .error (.config .cannotRead)
    | some text => ofToml toml text

/-- Save a configuration at a path (`save_to_file`). -/
def save (toml : Toml.Backend) (config : Config) (place : Place) : Attempt Place Unit :=
  .guarded (config.toToml toml) place fun text =>
    match place.write? text.toUTF8 with
    | some written => .done () written
    | none => .fail (.config .cannotWrite) place

end ByteExact.Config
