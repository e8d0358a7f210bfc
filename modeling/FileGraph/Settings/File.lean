import FileGraph.Settings
import FileGraph.Text.Utf8
import FileGraph.Toml.Reader
/-!
# File — settings that are kept in a file

The settings of a file have to be readable and to pass the check.  A file that cannot be had, one that is no settings
file, and one whose settings break a rule are told apart.
-/
namespace FileGraph.Settings

/-- Why a file gives no settings. -/
inductive LoadError where
  /-- There is no such file, or it is no text. -/
  | unreadable
  /-- The text is no settings file, or a field has the wrong type. -/
  | malformed
  /-- The settings break a rule. -/
  | invalid (fault : Fault)
  deriving DecidableEq, Repr

def read (text : String) : Except LoadError Settings :=
  match (Toml.read? text.toList).bind ofJson? with
  | none => .error .malformed
  | some s =>
    match s.check with
    | .ok () => .ok s
    | .error f => .error (.invalid f)

/-- The settings in the bytes of a file, if it exists. -/
def load (bytes : Option (List UInt8)) : Except LoadError Settings :=
  match bytes.bind Text.decode? with
  | none => .error .unreadable
  | some text => read text

end FileGraph.Settings
