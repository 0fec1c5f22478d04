import Haml.Dictionary
import Haml.Filter.Embed
import Haml.Filter.Libraries

/-! Filters: what is done with the text of a filter node before it is written. -/
namespace Haml

inductive Filter where
  | plain
  | preserve
  | escaped
  | cdata
  | css
  | stylus
  | less
  | sass
  | javascript
  | coffee
  | markdown
  | highlight
  | program
  /-- A filter that is not one of the above, but was added to them. -/
  | custom (write : Settings → Text → Text)

/-- The filters by name, and the libraries that some of them need. -/
structure Filters where
  registered : Dictionary Filter :=
    [("plain", .plain), ("preserve", .preserve), ("escaped", .escaped), ("cdata", .cdata),
     ("css", .css), ("stylus", .stylus), ("less", .less), ("sass", .sass),
     ("javascript", .javascript), ("coffee", .coffee), ("coffeescript", .coffee),
     ("markdown", .markdown), ("highlight", .highlight), ("python", .program)].map
      fun r => (r.1.toList, r.2)
  libraries : Libraries := {}
  hasMarkdown : Bool := true
  hasHighlighter : Bool := true
  /-- Whether the highlighter tries to find out the language of a text by itself. -/
  guessesLanguage : Bool := true

namespace Filters

def find (fs : Filters) (name : Text) : Except Failure Filter :=
  match fs.registered.get? name with
  | some f => .ok f
  | none => .error (.rejected (.unknownFilter name) none)

def register (fs : Filters) (name : Text) (f : Filter) : Filters :=
  { fs with registered := fs.registered.insert name f }

def lexer (fs : Filters) (t : Text) : Lexer :=
  (if fs.guessesLanguage then fs.libraries.guess t else none).getD fs.libraries.fallback

end Filters

namespace Filter

/-- Line breaks written as character references. -/
def keepBreaks (t : Text) : Text :=
  (Text.replaceChar '\n' "&#x000A;".toList (Text.trimRight t)).filter (· != '\r')

def cdataSection (t : Text) : Text :=
  "<![CDATA[".toList ++ Text.indentBreaks "    ".toList ('\n' :: Text.trimRight t) ++ "\n]]>".toList

/-- The text that a filter makes of its content. Nothing is highlighted or run if there is none. -/
def apply (f : Filter) (fs : Filters) (s : Settings) (t : Text) : Except Failure Text :=
  match f with
  | plain => .ok t
  | preserve => .ok (keepBreaks t)
  | escaped => .ok (Escape.html t)
  | cdata => .ok (cdataSection t)
  | css => .ok ((Embedding.style "text/css").render s t)
  | stylus => .ok ((Embedding.style "text/stylus").render s t)
  | less => .ok ((Embedding.style "text/less").render s t)
  | sass => .ok ((Embedding.style "text/sass").render s t)
  | javascript => .ok ((Embedding.script "text/javascript" "//").render s t)
  | coffee => .ok ((Embedding.script "text/coffeescript" "#").render s t)
  | markdown =>
    if fs.hasMarkdown then .ok (fs.libraries.markdown t) else .error (.rejected .noMarkdown none)
  | highlight =>
    if fs.hasHighlighter then .ok (if t.isEmpty then [] else fs.lexer t t)
    else .error (.rejected .noHighlighter none)
  | program => if t.isEmpty then .ok [] else (fs.libraries.run t).mapError ProgramError.failure
  | custom write => .ok (write s t)

end Filter

end Haml
