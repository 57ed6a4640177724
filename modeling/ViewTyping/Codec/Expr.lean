import ViewTyping.Codec.Schema
import ViewTyping.Decimal.Shortest
import ViewTyping.Expr.Basic

/-!
# Expressions as JSON

Every kind of expression is an alternative with its own name. `Expr.decoder` takes what
`Expr.encode` writes, and the other admitted spellings of it.
-/

set_option autoImplicit false

namespace ViewTyping

open Json

def UnaryOp.decoder : Decoder UnaryOp := Decoder.named UnaryOp.name UnaryOp.all

def BinaryOp.decoder : Decoder BinaryOp := Decoder.named BinaryOp.name BinaryOp.all

def Builtin.decoder : Decoder Builtin := Decoder.named Builtin.name Builtin.every

def ColumnRef.decoder : Decoder ColumnRef :=
  ((Record.field "table" Decoder.text).and <|
    Record.field "column" Column.decoder).decoder.map fun (table, column) => ⟨table, column⟩

def ColumnRef.encode (ref : ColumnRef) : Json :=
  .obj [("table", .str ref.table), ("column", ref.column.encode)]

def Literal.decoder : Decoder Literal :=
  .alternative fun
    | "String" => some (.value (Decoder.text.map .string))
    | "Int" => some (.value (Decoder.int32.map .int))
    | "Bool" => some (.value (Decoder.bool.map .bool))
    | "Long" => some (.value (Decoder.int64.map .long))
    | "Float" => some (.value (Decoder.double.map .float))
    | "Null" => some (.nothing .null)
    | _ => none

/-- A number in its shortest decimal form. -/
def Binary64.encode (x : Binary64) : Json :=
  let d := if x.significand = 0 then ⟨0, 0⟩ else x.shortest
  .num ⟨x.negative, d.digits, [], some d.exponent⟩

def Literal.encode : Literal → Json
  | .string s => .obj [("String", .str s)]
  | .int n => .obj [("Int", .int n.toInt)]
  | .bool b => .obj [("Bool", .bool b)]
  | .long n => .obj [("Long", .int n.toInt)]
  | .float x => .obj [("Float", x.encode)]
  | .null => .str "Null"

/-! ## Decoding -/

/-- Qualifiers, given how the expressions inside them are decoded. -/
def Qualifier.decoderOver (expr : Decoder Expr) : Decoder Qualifier :=
  .alternative fun
    | "Table" => some (.value (Decoder.text.map .source))
    | "Where" => some (.value (expr.map .filter))
    | "Join" => some (.value (expr.map .join))
    | _ => none

/-- The selection and the qualifiers of a sub-query. -/
def comprehensionOver (expr : Decoder Expr) : Decoder (List Expr × List Qualifier) :=
  ((Record.field "head" (Record.field "select" (.list expr)).decoder).and <|
    Record.field "qualifiers" (.list (Qualifier.decoderOver expr))).decoder

/-- Expressions, given how the expressions inside them are decoded. -/
def Expr.decoderOver (form : BodyForm) (expr : Decoder Expr) : Decoder Expr :=
  .alternative fun
    | "Column" => some (.value (ColumnRef.decoder.map .column))
    | "Literal" => some (.value (Literal.decoder.map .literal))
    | "Unary" => some (.value ((Record.bodyDecoder form <|
        (Record.field "op" UnaryOp.decoder).and <|
        Record.field "arg" expr).map fun (op, arg) => .unary op arg))
    | "Binary" => some (.value ((Record.bodyDecoder form <|
        (Record.field "op" BinaryOp.decoder).and <|
        (Record.field "left" expr).and <|
        Record.field "right" expr).map fun (op, left, right) => .binary op left right))
    | "Call" => some (.value ((Record.bodyDecoder form <|
        (Record.field "function" Builtin.decoder).and <|
        Record.field "args" (.list expr)).map fun (function, args) => .call function args))
    | "Exists" => some (.value (expr.map (.test .existence)))
    | "IsNull" => some (.value (expr.map (.test .isNull)))
    | "IsNotNull" => some (.value (expr.map (.test .isNotNull)))
    | "ListComprehension" => some (.value ((comprehensionOver expr).map
        fun (select, qualifiers) => .subquery select qualifiers none))
    | "GroupByComprehension" => some (.value ((Record.bodyDecoder form <|
        (Record.field "comprehension" (comprehensionOver expr)).and <|
        Record.field "group_by" (.list ColumnRef.decoder)).map
          fun ((select, qualifiers), groupBy) => .subquery select qualifiers (some groupBy)))
    | "Aliased" => some (.value ((Record.bodyDecoder form <|
        (Record.field "expr" expr).and <|
        Record.field "alias" Decoder.text).map fun (e, name) => .aliased e name))
    | _ => none

/-- Expressions in which at most `levels` expressions are nested in each other. -/
def Expr.decoderTo (form : BodyForm) : (levels : Nat) → Decoder Expr
  | 0 => .alternative fun _ => none
  | levels + 1 => Expr.decoderOver form (Expr.decoderTo form levels)

/-- Every expression opens an object, so the room for objects bounds the nesting of expressions. -/
def Expr.decoder (form : BodyForm) : Decoder Expr := fun room r => Expr.decoderTo form room room r

def Qualifier.decoder (form : BodyForm) : Decoder Qualifier :=
  Qualifier.decoderOver (Expr.decoder form)

/-! ## Encoding -/

mutual

def Expr.encode : Expr → Json
  | .column ref => .obj [("Column", ref.encode)]
  | .literal value => .obj [("Literal", value.encode)]
  | .unary op arg => .obj [("Unary", .obj [("op", .str op.name), ("arg", arg.encode)])]
  | .binary op left right =>
    .obj [("Binary", .obj [("op", .str op.name), ("left", left.encode), ("right", right.encode)])]
  | .call function args =>
    .obj [("Call", .obj [("function", .str function.name), ("args", .arr (encodeExprs args))])]
  | .test .existence arg => .obj [("Exists", arg.encode)]
  | .test .isNull arg => .obj [("IsNull", arg.encode)]
  | .test .isNotNull arg => .obj [("IsNotNull", arg.encode)]
  | .subquery select qualifiers groupBy =>
    let body := Json.obj [("head", .obj [("select", .arr (encodeExprs select))]),
      ("qualifiers", .arr (encodeQualifiers qualifiers))]
    match groupBy with
    | none => .obj [("ListComprehension", body)]
    | some refs => .obj [("GroupByComprehension",
        .obj [("comprehension", body), ("group_by", .arr (refs.map ColumnRef.encode))])]
  | .aliased e name => .obj [("Aliased", .obj [("expr", e.encode), ("alias", .str name)])]

def encodeExprs : List Expr → List Json
  | [] => []
  | e :: es => e.encode :: encodeExprs es

def Qualifier.encode : Qualifier → Json
  | .source table => .obj [("Table", .str table)]
  | .filter e => .obj [("Where", e.encode)]
  | .join e => .obj [("Join", e.encode)]

def encodeQualifiers : List Qualifier → List Json
  | [] => []
  | q :: qs => q.encode :: encodeQualifiers qs

end

end ViewTyping
