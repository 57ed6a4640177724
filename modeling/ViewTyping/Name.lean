/-!
# Names

Views and their fields are named without regard to the case of ASCII letters: two spellings are the
same name when `normalize` makes them equal. Tables and their columns are named as written.
-/

set_option autoImplicit false

namespace ViewTyping.Name

/-- The form under which a view or a view field is stored: ASCII letters in upper case, every
other character as it is. -/
def normalize (name : String) : String :=
  String.ofList (name.toList.map Char.toUpper)

end ViewTyping.Name
