import ViewTyping.Json.Basic
import ViewTyping.Json.Decoder
import ViewTyping.ValueType

/-!
# Tables and value types as JSON
-/

set_option autoImplicit false

namespace ViewTyping

open Json

def Kind.encode (k : Kind) : Json := .str k.name

/-- A column is an input unless it says that it is controllable. -/
def Column.decoder : Decoder Column :=
  ((Record.field "name" Decoder.text).and <|
    (Record.field "kind" Decoder.kind).and <|
    Record.field "controllable" Decoder.bool (some false)).decoder.map
      fun (name, kind, controllable) => ⟨name, kind, controllable⟩

def Column.encode (c : Column) : Json :=
  .obj [("name", .str c.name), ("kind", c.kind.encode), ("controllable", .bool c.controllable)]

def Table.decoder : Decoder Table :=
  ((Record.field "name" Decoder.text).and <|
    Record.field "columns" (.list Column.decoder)).decoder.map
      fun (name, columns) => ⟨name, columns⟩

def Table.encode (t : Table) : Json :=
  .obj [("name", .str t.name), ("columns", .arr (t.columns.map Column.encode))]

def ValueType.decoder : Decoder ValueType := Decoder.named ValueType.name ValueType.all

def ValueType.encode (t : ValueType) : Json := .str t.name

end ViewTyping
