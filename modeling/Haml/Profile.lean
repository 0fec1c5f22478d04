import Haml.Filter.Basic
import Haml.Tags

/-! Everything besides its text that the compilation of a template depends on. -/
namespace Haml

structure Profile where
  settings : Settings := {}
  tags : Tags := Dialect.tags .django
  filters : Filters := {}
  /-- Whether the equals sign marks inline variables too. -/
  inlineEquals : Bool := false

end Haml
