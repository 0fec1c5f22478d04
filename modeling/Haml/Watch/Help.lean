import Haml.Text.Basic

/-! What the command says about its own arguments. -/
namespace Haml.Watch.Help

def width : Nat := 78

/-- Parts put on lines as long as they fit. The first line has `used` characters already, the others
are indented by `indent`. -/
def fill (indent used : Nat) (line : List Text) : List Text → List (List Text)
  | [] => if line.isEmpty then [] else [line]
  | part :: parts =>
    if width < used + 1 + part.length ∧ line ≠ [] then
      line :: fill indent (indent + part.length) [part] parts
    else fill indent (used + 1 + part.length) (line ++ [part]) parts

def options : List Text :=
  ["[-h]", "[-v]", "[-i EXT [EXT ...]]", "[-ext EXT]", "[-r S]", "[--tag TAG]",
   "[--attr-wrapper \x7b\",'\x7d]", "[--django-inline]", "[--jinja]", "[--once]"].map (·.toList)

def directories : List Text := ["input_dir".toList, "[output_dir]".toList]

def usage (program : Text) : List Text :=
  let start := "usage: ".toList
  let indent := start.length + program.length + 1
  let spaces := List.replicate indent ' '
  let joined (line : List Text) : Text := [' '].intercalate line
  match fill indent (start.length - 1) [] (program :: options) with
  | [] => []
  | first :: others =>
    (start ++ joined first) ::
      (others ++ fill indent (indent - 1) [] directories).map fun line => spaces ++ joined line

def meanings : List Text :=
  ["", "positional arguments:",
   "  input_dir             Folder to watch",
   "  output_dir            Destination folder",
   "", "options:",
   "  -h, --help            show this help message and exit",
   "  -v, --verbose         Display verbose output",
   "  -i EXT [EXT ...], --input-extension EXT [EXT ...]",
   "                        The file extensions to look for.",
   "  -ext EXT, --extension EXT",
   "                        The output file extension. Default is .html",
   "  -r S, --refresh S     Refresh interval for files. Default is 3 seconds.",
   "                        Ignored if the --once flag is set.",
   "  --tag TAG             Add self closing tag. eg. --tag macro:endmacro",
   "  --attr-wrapper \x7b\",'\x7d  The character that should wrap element attributes.",
   "                        This defaults to ' (an apostrophe).",
   "  --django-inline       Whether to support =\x7b...\x7d syntax for inline variables",
   "                        in addition to #\x7b...\x7d",
   "  --jinja               Makes the necessary changes to be used with Jinja2.",
   "  --once                Runs the compiler once and exits on completion.",
   "                        Returns a non-zero exit code if there were any compile",
   "                        errors."].map (·.toList)

def lines (program : Text) : List Text := usage program ++ meanings

end Haml.Watch.Help
