import ViewTyping.Codec.Expr
import ViewTyping.Layout
import ViewTyping.Program.Basic

/-!
# Programs and layouts as JSON
-/

set_option autoImplicit false

namespace ViewTyping

open Json

def View.decoder (form : BodyForm) : Decoder View :=
  ((Record.field "name" Decoder.text).and <|
    Record.field "select" (.list (Expr.decoder form))).decoder.map fun (name, select) => ⟨name, select⟩

def View.encode (v : View) : Json :=
  .obj [("name", .str v.name), ("select", .arr (encodeExprs v.select))]

/-- A program may leave out its tables or its views. -/
def Program.decoder (form : BodyForm) : Decoder Program :=
  ((Record.field "tables" (.list Table.decoder) (some [])).and <|
    Record.field "views" (.list (View.decoder form)) (some [])).decoder.map
      fun (tables, views) => ⟨tables, views⟩

def Program.encode (p : Program) : Json :=
  .obj [("tables", .arr (p.tables.map Table.encode)), ("views", .arr (p.views.map View.encode))]

def Field.encode (f : Field) : Json :=
  .obj [("name", .str f.name), ("position", .nat f.position), ("ty", f.type.encode)]

def Layout.encode (l : Layout) : Json :=
  .obj [("scope", .str l.scope), ("kind", .str l.kind.name),
    ("fields", .arr (l.fields.map Field.encode))]

end ViewTyping
