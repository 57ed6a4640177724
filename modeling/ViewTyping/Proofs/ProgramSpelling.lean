import ViewTyping.CommandLine
import ViewTyping.Proofs.JsonSpelling
import ViewTyping.Proofs.Occurrences

/-!
# Spellings of programs

The spellings that a program's text may use, type by type (`Program.spellings` and those that it is
made of). A column kind is any type name that stands for it, and a float literal any number that is
rounded to it. Whether the number that is written for one is rounded to it is not told here.

* `Program.encode_spelling`: what is written for a program without float literals is a spelling.
* `reads_expr`: expressions are read from their spellings, by induction on the nesting.
* `reads_program`: so are programs.
* `Program.decode_spelling`: decoding undoes encoding, in every spelling.
-/

set_option autoImplicit false

namespace ViewTyping

open Json FieldSpelling

/-! ## Spellings -/

def Kind.spellings (k : Kind) : Spellings := fun j =>
  ∃ name, Kind.ofName? name = some k ∧ j = .str name

def Column.spellings (c : Column) : Spellings :=
  .struct [required "name" (· = .str c.name), required "kind" c.kind.spellings,
    ⟨"controllable", (· = .bool c.controllable), c.controllable = false⟩]

def Table.spellings (t : Table) : Spellings :=
  .struct [required "name" (· = .str t.name),
    required "columns" (.list (t.columns.map Column.spellings))]

def ColumnRef.spellings (ref : ColumnRef) : Spellings :=
  .struct [required "table" (· = .str ref.table), required "column" ref.column.spellings]

def Literal.spellings : Literal → Spellings
  | .string s => .tagged "String" (· = .str s)
  | .int n => .tagged "Int" (· = .int n.toInt)
  | .bool b => .tagged "Bool" (· = .bool b)
  | .long n => .tagged "Long" (· = .int n.toInt)
  | .float x => .tagged "Float" fun j => ∃ n, n.toBinary64? = some x ∧ j = .num n
  | .null => .unit "Null"

/-- The selection and the qualifiers of a sub-query. -/
def comprehensionSpellings (select qualifiers : List Spellings) : Spellings :=
  .struct [required "head" (.struct [required "select" (.list select)]),
    required "qualifiers" (.list qualifiers)]

def Test.tag : Test → String
  | .existence => "Exists"
  | .isNull => "IsNull"
  | .isNotNull => "IsNotNull"

mutual

/-- The spellings of an expression; `form` says whether the fields of an alternative may be written
as an array, as they may in texts. -/
def Expr.spellings (form : BodyForm) : Expr → Spellings
  | .column ref => .tagged "Column" ref.spellings
  | .literal value => .tagged "Literal" value.spellings
  | .unary op arg => .tagged "Unary" (.body form
      [required "op" (.unit op.name), required "arg" (arg.spellings form)])
  | .binary op left right => .tagged "Binary" (.body form
      [required "op" (.unit op.name), required "left" (left.spellings form),
        required "right" (right.spellings form)])
  | .call function args => .tagged "Call" (.body form
      [required "function" (.unit function.name),
        required "args" (.list (exprSpellings form args))])
  | .test t arg => .tagged t.tag (arg.spellings form)
  | .subquery select qualifiers none => .tagged "ListComprehension"
      (comprehensionSpellings (exprSpellings form select) (qualifierSpellings form qualifiers))
  | .subquery select qualifiers (some refs) => .tagged "GroupByComprehension" (.body form
      [required "comprehension" (comprehensionSpellings (exprSpellings form select)
        (qualifierSpellings form qualifiers)),
        required "group_by" (.list (refs.map ColumnRef.spellings))])
  | .aliased e name => .tagged "Aliased" (.body form
      [required "expr" (e.spellings form), required "alias" (· = .str name)])

def exprSpellings (form : BodyForm) : List Expr → List Spellings
  | [] => []
  | e :: es => e.spellings form :: exprSpellings form es

def Qualifier.spellings (form : BodyForm) : Qualifier → Spellings
  | .source table => .tagged "Table" (· = .str table)
  | .filter e => .tagged "Where" (e.spellings form)
  | .join e => .tagged "Join" (e.spellings form)

def qualifierSpellings (form : BodyForm) : List Qualifier → List Spellings
  | [] => []
  | q :: qs => q.spellings form :: qualifierSpellings form qs

end

def View.spellings (form : BodyForm) (v : View) : Spellings :=
  .struct [required "name" (· = .str v.name),
    required "select" (.list (v.select.map (Expr.spellings form)))]

/-- The spellings of a program. Tables or views may be left out where there are none. -/
def Program.spellings (form : BodyForm) (p : Program) : Spellings :=
  .struct [⟨"tables", .list (p.tables.map Table.spellings), p.tables = []⟩,
    ⟨"views", .list (p.views.map (View.spellings form)), p.views = []⟩]

theorem exprSpellings_eq (form : BodyForm) (es : List Expr) :
    exprSpellings form es = es.map (Expr.spellings form) := by
  induction es with
  | nil => rfl
  | cons e es ih => rw [exprSpellings, ih, List.map_cons]

theorem qualifierSpellings_eq (form : BodyForm) (qs : List Qualifier) :
    qualifierSpellings form qs = qs.map (Qualifier.spellings form) := by
  induction qs with
  | nil => rfl
  | cons q qs ih => rw [qualifierSpellings, ih, List.map_cons]

/-! ## Reading columns, tables and literals -/

section
variable (n : Nat)

theorem reads_text (s : String) : Decoder.text.Reads n (· = .str s) s := by
  rintro _ room rfl -
  rfl

theorem reads_bool (b : Bool) : Decoder.bool.Reads n (· = .bool b) b := by
  rintro _ room rfl -
  rfl

theorem toInt?_ofInt (i : Int) : (Numeral.ofInt i).toInt? = some i := by
  -- the sign is written only of a number that is not zero
  have hzero : (decide (i < 0) && i.natAbs == 0) = false := by
    rw [Bool.and_eq_false_iff, decide_eq_false_iff_not, beq_eq_false_iff_ne]
    omega
  have hvalue : (if decide (i < 0) = true then -(i.natAbs : Int) else i.natAbs) = i := by
    simp only [decide_eq_true_eq]
    split <;> omega
  show (if (false || (decide (i < 0) && i.natAbs == 0)) = true then none else
    some (if decide (i < 0) = true then -(i.natAbs : Int) else i.natAbs)) = some i
  rw [hzero, hvalue]
  rfl

theorem reads_whole {fits : Int → Bool} {i : Int} (h : fits i = true) :
    (Decoder.whole fits).Reads n (· = .int i) i := by
  rintro _ room rfl -
  simp only [Json.int, reading, Decoder.whole, toInt?_ofInt, h, if_true]

theorem reads_int32 (i : Int32) : Decoder.int32.Reads n (· = .int i.toInt) i := by
  have h : Decoder.int32.Reads n (· = .int i.toInt) (Int32.ofInt i.toInt) := by
    refine Decoder.Reads.map Int32.ofInt (reads_whole n ?_)
    simp only [Bool.and_eq_true, decide_eq_true_eq]
    exact ⟨i.minValue_le_toInt, i.toInt_le⟩
  rwa [Int32.ofInt_toInt] at h

theorem reads_int64 (i : Int64) : Decoder.int64.Reads n (· = .int i.toInt) i := by
  have h : Decoder.int64.Reads n (· = .int i.toInt) (Int64.ofInt i.toInt) := by
    refine Decoder.Reads.map Int64.ofInt (reads_whole n ?_)
    simp only [Bool.and_eq_true, decide_eq_true_eq]
    exact ⟨i.minValue_le_toInt, i.toInt_le⟩
  rwa [Int64.ofInt_toInt] at h

theorem reads_double (x : Binary64) :
    Decoder.double.Reads n (fun j => ∃ n, n.toBinary64? = some x ∧ j = .num n) x := by
  rintro _ room ⟨n, hn, rfl⟩ -
  simp only [Decoder.double, reading, hn]

theorem reads_kind (k : Kind) : Decoder.kind.Reads n k.spellings k := by
  rintro _ room ⟨name, hname, rfl⟩ -
  simp only [Decoder.kind, reading, Decoder.text, bind, Except.bind, hname, pure, Except.pure]

theorem reads_column (c : Column) : Column.decoder.Reads n c.spellings c := by
  have hdefault : c.controllable = false → some false = some c.controllable := fun h => by rw [h]
  have hfields := (Record.reads_required "name" (reads_text n c.name)).and
    ((Record.reads_required "kind" (reads_kind n c.kind)).and
      (Record.reads_field "controllable" (reads_bool n c.controllable) hdefault)
      (by simp [required])) (by simp [required])
  exact (hfields.decoder.map _).mono (Nat.le_succ n)

theorem reads_table (t : Table) : Table.decoder.Reads n t.spellings t := by
  have hcolumns : (Decoder.list Column.decoder).Reads (n + 1)
      (.list (t.columns.map Column.spellings)) t.columns := reads_list fun c _ => reads_column n c
  have hfields := (Record.reads_required "name" (reads_text (n + 1) t.name)).and
    (Record.reads_required "columns" hcolumns) (by simp [required])
  exact (hfields.decoder.map _).mono (by omega)

theorem reads_columnRef (ref : ColumnRef) : ColumnRef.decoder.Reads n ref.spellings ref := by
  have hfields := (Record.reads_required "table" (reads_text n ref.table)).and
    (Record.reads_required "column" (reads_column n ref.column)) (by simp [required])
  exact (hfields.decoder.map _).mono (Nat.le_succ n)

theorem reads_literal (value : Literal) : Literal.decoder.Reads n value.spellings value := by
  refine Decoder.Reads.mono ?_ (Nat.le_succ n)
  cases value with
  | string s => exact reads_tagged rfl ((reads_text n s).map Literal.string)
  | int i => exact reads_tagged rfl ((reads_int32 n i).map Literal.int)
  | bool b => exact reads_tagged rfl ((reads_bool n b).map Literal.bool)
  | long i => exact reads_tagged rfl ((reads_int64 n i).map Literal.long)
  | float x => exact reads_tagged rfl ((reads_double n x).map Literal.float)
  | null => exact reads_unit rfl

theorem reads_unaryOp (op : UnaryOp) : UnaryOp.decoder.Reads n (.unit op.name) op := by
  refine reads_unit ?_
  cases op <;> rfl

theorem reads_binaryOp (op : BinaryOp) : BinaryOp.decoder.Reads n (.unit op.name) op := by
  refine reads_unit ?_
  cases op <;> rfl

theorem reads_builtin (function : Builtin) :
    Builtin.decoder.Reads n (.unit function.name) function := by
  refine reads_unit ?_
  cases function <;> rfl

end

/-! ## Reading expressions -/

section
variable {form : BodyForm} {n : Nat} {expr : Decoder Expr}
  (hexpr : ∀ e : Expr, expr.Reads n (e.spellings form) e)
include hexpr

theorem reads_exprs (es : List Expr) :
    (Decoder.list expr).Reads (n + 1) (.list (exprSpellings form es)) es := by
  rw [exprSpellings_eq]
  exact reads_list fun e _ => hexpr e

theorem reads_qualifier (q : Qualifier) :
    (Qualifier.decoderOver expr).Reads (n + 1) (q.spellings form) q := by
  cases q with
  | source table =>
    rw [Qualifier.spellings]
    exact reads_tagged rfl ((reads_text n table).map Qualifier.source)
  | filter e =>
    rw [Qualifier.spellings]
    exact reads_tagged rfl ((hexpr e).map Qualifier.filter)
  | join e =>
    rw [Qualifier.spellings]
    exact reads_tagged rfl ((hexpr e).map Qualifier.join)

theorem reads_comprehension (select : List Expr) (qualifiers : List Qualifier) :
    (comprehensionOver expr).Reads (n + 3) (comprehensionSpellings (exprSpellings form select)
      (qualifierSpellings form qualifiers)) (select, qualifiers) := by
  have hhead := (Record.reads_required "select" (reads_exprs hexpr select)).decoder
  have hqualifiers : (Decoder.list (Qualifier.decoderOver expr)).Reads (n + 2)
      (.list (qualifierSpellings form qualifiers)) qualifiers := by
    rw [qualifierSpellings_eq]
    exact reads_list fun q _ => reads_qualifier hexpr q
  exact ((Record.reads_required "head" hhead).and
    (Record.reads_required "qualifiers" hqualifiers) (by simp [required])).decoder

/-- One level of an expression, given that those inside it are read. -/
theorem reads_decoderOver (e : Expr) :
    (Expr.decoderOver form expr).Reads (n + 1) (e.spellings form) e := by
  cases e with
  | column ref =>
    rw [Expr.spellings]
    exact reads_tagged rfl ((reads_columnRef n ref).map Expr.column)
  | literal value =>
    rw [Expr.spellings]
    exact reads_tagged rfl ((reads_literal n value).map Expr.literal)
  | unary op arg =>
    rw [Expr.spellings]
    have hfields := (Record.reads_required "op" (reads_unaryOp n op)).and
      (Record.reads_required "arg" (hexpr arg)) (by simp [required])
    exact reads_tagged rfl (((hfields.bodyDecoder form).map _).mono (by omega))
  | binary op left right =>
    rw [Expr.spellings]
    have hfields := (Record.reads_required "op" (reads_binaryOp n op)).and
      ((Record.reads_required "left" (hexpr left)).and
        (Record.reads_required "right" (hexpr right)) (by simp [required])) (by simp [required])
    exact reads_tagged rfl (((hfields.bodyDecoder form).map _).mono (by omega))
  | call function args =>
    rw [Expr.spellings]
    have hfields := (Record.reads_required "function" (reads_builtin (n + 1) function)).and
      (Record.reads_required "args" (reads_exprs hexpr args)) (by simp [required])
    exact reads_tagged rfl (((hfields.bodyDecoder form).map _).mono (by omega))
  | test t arg =>
    rw [Expr.spellings]
    cases t with
    | existence => exact reads_tagged rfl ((hexpr arg).map (Expr.test .existence))
    | isNull => exact reads_tagged rfl ((hexpr arg).map (Expr.test .isNull))
    | isNotNull => exact reads_tagged rfl ((hexpr arg).map (Expr.test .isNotNull))
  | subquery select qualifiers groupBy =>
    have hbody := reads_comprehension hexpr select qualifiers
    cases groupBy with
    | none =>
      rw [Expr.spellings]
      exact reads_tagged rfl ((hbody.map _).mono (by omega))
    | some refs =>
      rw [Expr.spellings]
      have hrefs : (Decoder.list ColumnRef.decoder).Reads (n + 3)
          (.list (refs.map ColumnRef.spellings)) refs := reads_list fun ref _ =>
        reads_columnRef (n + 2) ref
      have hfields := (Record.reads_required "comprehension" hbody).and
        (Record.reads_required "group_by" hrefs) (by simp [required])
      exact reads_tagged rfl (((hfields.bodyDecoder form).map _).mono (by omega))
  | aliased e name =>
    rw [Expr.spellings]
    have hfields := (Record.reads_required "expr" (hexpr e)).and
      (Record.reads_required "alias" (reads_text n name)) (by simp [required])
    exact reads_tagged rfl (((hfields.bodyDecoder form).map _).mono (by omega))

end

/-- Every spelling of an expression is an object. -/
theorem Expr.spellings_tagged (form : BodyForm) (e : Expr) :
    ∃ name S, e.spellings form = .tagged name S := by
  cases e with
  | subquery select qualifiers groupBy => cases groupBy <;> exact ⟨_, _, by rw [Expr.spellings]⟩
  | _ => exact ⟨_, _, by rw [Expr.spellings]⟩

theorem reads_decoderTo (form : BodyForm) : ∀ (levels : Nat) (e : Expr),
    (Expr.decoderTo form levels).Reads levels (e.spellings form) e
  | 0, e => by
    intro j room hj hfits
    obtain ⟨name, S, hS⟩ := e.spellings_tagged form
    rw [hS] at hj
    obtain ⟨j', -, rfl⟩ := hj
    exact absurd hfits.1 (Nat.not_succ_le_zero _)
  | levels + 1, e => reads_decoderOver (reads_decoderTo form levels) e

/-- **Expressions are read from their spellings.** -/
theorem reads_expr (form : BodyForm) (n : Nat) (e : Expr) :
    (Expr.decoder form).Reads n (e.spellings form) e :=
  fun j room hj hfits => reads_decoderTo form room e j room hj ⟨hfits.2, hfits.2⟩

theorem reads_view (form : BodyForm) (n : Nat) (v : View) :
    (View.decoder form).Reads n (v.spellings form) v := by
  have hselect : (Decoder.list (Expr.decoder form)).Reads (n + 1)
      (.list (v.select.map (Expr.spellings form))) v.select := reads_list fun e _ =>
    reads_expr form n e
  have hfields := (Record.reads_required "name" (reads_text (n + 1) v.name)).and
    (Record.reads_required "select" hselect) (by simp [required])
  exact (hfields.decoder.map _).mono (by omega)

/-- **Programs are read from their spellings.** -/
theorem reads_program (form : BodyForm) (n : Nat) (p : Program) :
    (Program.decoder form).Reads n (p.spellings form) p := by
  have htables : (Decoder.list Table.decoder).Reads (n + 1)
      (.list (p.tables.map Table.spellings)) p.tables := reads_list fun t _ => reads_table n t
  have hviews : (Decoder.list (View.decoder form)).Reads (n + 1)
      (.list (p.views.map (View.spellings form))) p.views := reads_list fun v _ =>
    reads_view form n v
  have hfields := (Record.reads_field "tables" htables
      (fun h : p.tables = [] => congrArg some h.symm)).and
    (Record.reads_field "views" hviews (fun h : p.views = [] => congrArg some h.symm)) (by simp)
  exact (hfields.decoder.map _).mono (by omega)

/-! ## What is written is a spelling -/

mutual

/-- The literals of an expression. -/
def Expr.literals : Expr → List Literal
  | .column _ => []
  | .literal value => [value]
  | .unary _ arg => arg.literals
  | .binary _ left right => left.literals ++ right.literals
  | .call _ args => literalsOfExprs args
  | .test _ arg => arg.literals
  | .subquery select qualifiers _ => literalsOfExprs select ++ literalsOfQualifiers qualifiers
  | .aliased e _ => e.literals

def literalsOfExprs : List Expr → List Literal
  | [] => []
  | e :: es => e.literals ++ literalsOfExprs es

def Qualifier.literals : Qualifier → List Literal
  | .source _ => []
  | .filter e => e.literals
  | .join e => e.literals

def literalsOfQualifiers : List Qualifier → List Literal
  | [] => []
  | q :: qs => q.literals ++ literalsOfQualifiers qs

end

/-- No literal of the program is a float. -/
def Program.FloatFree (p : Program) : Prop :=
  ∀ v ∈ p.views, ∀ e ∈ v.select, ∀ x, Literal.float x ∉ e.literals

theorem literalsOfExprs_eq (es : List Expr) : literalsOfExprs es = es.flatMap Expr.literals := by
  induction es with
  | nil => rfl
  | cons e es ih => rw [literalsOfExprs, ih, List.flatMap_cons]

theorem literalsOfQualifiers_eq (qs : List Qualifier) :
    literalsOfQualifiers qs = qs.flatMap Qualifier.literals := by
  induction qs with
  | nil => rfl
  | cons q qs ih => rw [literalsOfQualifiers, ih, List.flatMap_cons]

theorem encodeExprs_eq (es : List Expr) : encodeExprs es = es.map Expr.encode := by
  induction es with
  | nil => rfl
  | cons e es ih => rw [encodeExprs, ih, List.map_cons]

theorem encodeQualifiers_eq (qs : List Qualifier) :
    encodeQualifiers qs = qs.map Qualifier.encode := by
  induction qs with
  | nil => rfl
  | cons q qs ih => rw [encodeQualifiers, ih, List.map_cons]

theorem Kind.encode_spelling (k : Kind) : k.spellings k.encode := by
  refine ⟨k.name, ?_, rfl⟩
  cases k <;> decide +kernel

theorem Column.encode_spelling (c : Column) : c.spellings c.encode :=
  Spellings.struct_obj
    (.cons ⟨rfl, rfl⟩ (.cons ⟨rfl, c.kind.encode_spelling⟩ (.cons ⟨rfl, rfl⟩ .nil)))
    (by simp [required])

theorem Table.encode_spelling (t : Table) : t.spellings t.encode :=
  Spellings.struct_obj
    (.cons ⟨rfl, rfl⟩ (.cons ⟨rfl, Spellings.list_arr fun c _ => c.encode_spelling⟩ .nil))
    (by simp [required])

theorem ColumnRef.encode_spelling (ref : ColumnRef) : ref.spellings ref.encode :=
  Spellings.struct_obj (.cons ⟨rfl, rfl⟩ (.cons ⟨rfl, ref.column.encode_spelling⟩ .nil))
    (by simp [required])

theorem Literal.encode_spelling {value : Literal} (h : ∀ x, value ≠ .float x) :
    value.spellings value.encode := by
  cases value with
  | float x => exact absurd rfl (h x)
  | null => exact .inl rfl
  | string | int | bool | long => exact ⟨_, rfl, rfl⟩

theorem Qualifier.encode_spelling {form : BodyForm} {q : Qualifier}
    (h : ∀ e, q.predicate? = some e → e.spellings form e.encode) : q.spellings form q.encode := by
  cases q with
  | source table =>
    rw [Qualifier.spellings, Qualifier.encode]
    exact Spellings.tagged_obj rfl
  | filter e =>
    rw [Qualifier.spellings, Qualifier.encode]
    exact Spellings.tagged_obj (h e rfl)
  | join e =>
    rw [Qualifier.spellings, Qualifier.encode]
    exact Spellings.tagged_obj (h e rfl)

theorem comprehension_spelling {form : BodyForm} {select : List Expr} {qualifiers : List Qualifier}
    (hs : ∀ e ∈ select, e.spellings form e.encode)
    (hq : ∀ q ∈ qualifiers, q.spellings form q.encode) :
    comprehensionSpellings (exprSpellings form select) (qualifierSpellings form qualifiers)
      (.obj [("head", .obj [("select", .arr (encodeExprs select))]),
        ("qualifiers", .arr (encodeQualifiers qualifiers))]) := by
  rw [exprSpellings_eq, qualifierSpellings_eq, encodeExprs_eq, encodeQualifiers_eq]
  have hhead : Spellings.struct [required "select" (.list (select.map (Expr.spellings form)))]
      (.obj [("select", .arr (select.map Expr.encode))]) :=
    Spellings.struct_obj (.cons ⟨rfl, Spellings.list_arr hs⟩ .nil) (by simp)
  exact Spellings.struct_obj (.cons ⟨rfl, hhead⟩ (.cons ⟨rfl, Spellings.list_arr hq⟩ .nil))
    (by simp [required])

theorem Expr.encode_spelling (form : BodyForm) {e : Expr}
    (h : ∀ x, Literal.float x ∉ e.literals) : e.spellings form e.encode := by
  induction e using Expr.induct with
  | column ref =>
    rw [Expr.spellings, Expr.encode]
    exact Spellings.tagged_obj ref.encode_spelling
  | literal value =>
    rw [Expr.spellings, Expr.encode]
    refine Spellings.tagged_obj (Literal.encode_spelling fun x hx => h x ?_)
    rw [Expr.literals, hx]
    exact .head _
  | unary op arg ih =>
    rw [Expr.spellings, Expr.encode]
    exact Spellings.tagged_obj (Spellings.body_obj form
      (.cons ⟨rfl, .inl rfl⟩ (.cons ⟨rfl, ih h⟩ .nil)) (by simp [required]))
  | binary op left right ihl ihr =>
    simp only [Expr.literals, List.mem_append, not_or] at h
    rw [Expr.spellings, Expr.encode]
    exact Spellings.tagged_obj (Spellings.body_obj form
      (.cons ⟨rfl, .inl rfl⟩ (.cons ⟨rfl, ihl fun x => (h x).1⟩
        (.cons ⟨rfl, ihr fun x => (h x).2⟩ .nil))) (by simp [required]))
  | call function args ih =>
    simp only [Expr.literals, literalsOfExprs_eq, List.mem_flatMap, not_exists, not_and] at h
    rw [Expr.spellings, Expr.encode, exprSpellings_eq, encodeExprs_eq]
    exact Spellings.tagged_obj (Spellings.body_obj form
      (.cons ⟨rfl, .inl rfl⟩ (.cons ⟨rfl, Spellings.list_arr fun a ha =>
        ih a ha fun x => h x a ha⟩ .nil)) (by simp [required]))
  | test t arg ih =>
    rw [Expr.spellings]
    cases t <;> rw [Expr.encode] <;> exact Spellings.tagged_obj (ih h)
  | subquery select qualifiers groupBy ihs ihq =>
    simp only [Expr.literals, literalsOfExprs_eq, literalsOfQualifiers_eq, List.mem_append,
      List.mem_flatMap, not_or, not_exists, not_and] at h
    have hq : ∀ q ∈ qualifiers, q.spellings form q.encode := by
      intro q hq
      refine Qualifier.encode_spelling fun e he => ihq q hq e he fun x hx => (h x).2 q hq ?_
      cases q with
      | source table => cases he
      | filter e' => cases he; exact hx
      | join e' => cases he; exact hx
    have hbody := comprehension_spelling (fun e he => ihs e he fun x => (h x).1 e he) hq
    cases groupBy with
    | none =>
      rw [Expr.spellings, Expr.encode]
      exact Spellings.tagged_obj hbody
    | some refs =>
      rw [Expr.spellings, Expr.encode]
      exact Spellings.tagged_obj (Spellings.body_obj form (.cons ⟨rfl, hbody⟩
        (.cons ⟨rfl, Spellings.list_arr fun ref _ => ref.encode_spelling⟩ .nil))
        (by simp [required]))
  | aliased e name ih =>
    rw [Expr.spellings, Expr.encode]
    exact Spellings.tagged_obj (Spellings.body_obj form
      (.cons ⟨rfl, ih h⟩ (.cons ⟨rfl, rfl⟩ .nil)) (by simp [required]))

namespace Program

variable {p : Program}

/-- **What is written for a program is one of its spellings**, if it has no float literals. -/
theorem encode_spelling (form : BodyForm) (hp : p.FloatFree) : p.spellings form p.encode := by
  have hview : ∀ v ∈ p.views, v.spellings form v.encode := by
    intro v hv
    rw [View.encode, encodeExprs_eq]
    exact Spellings.struct_obj (.cons ⟨rfl, rfl⟩ (.cons ⟨rfl, Spellings.list_arr fun e he =>
      e.encode_spelling form (hp v hv e he)⟩ .nil)) (by simp [required])
  exact Spellings.struct_obj
    (.cons ⟨rfl, Spellings.list_arr fun t _ => t.encode_spelling⟩
      (.cons ⟨rfl, Spellings.list_arr hview⟩ .nil)) (by simp)

/-- **Decoding undoes encoding, in every spelling** of a program without float literals, in trees of
any depth and in texts as far as they may be nested. The form `.object` is the decoder of trees: it
refuses an array as the body of an alternative, which texts may write. -/
theorem decode_spelling (hp : p.FloatFree) :
    (∀ form, p.spellings form p.encode) ∧
    (∀ form j, p.spellings form j → ∀ room, j.reading.depth ≤ room →
      Program.decoder form room j.reading = .ok p) ∧
    ∀ j, p.spellings .objectOrArray j → ∀ faultText path text rest,
      Reading.ofText text = (j.reading, rest) → rest.all isSpace = true →
      j.reading.depth ≤ CommandLine.nestingLimit →
      CommandLine.load faultText path (.ok text) = .ok p := by
  refine ⟨fun form => encode_spelling form hp, fun form j hj room hroom => ?_,
    fun j hj faultText path text rest htext hrest hdepth => ?_⟩
  · exact reads_program form room p j room hj ⟨hroom, hroom⟩
  · have hread : Program.decoder .objectOrArray CommandLine.nestingLimit j.reading = .ok p :=
      reads_program .objectOrArray _ p j _ hj ⟨hdepth, hdepth⟩
    have hrun : (Program.decoder .objectOrArray).runText CommandLine.nestingLimit text = .ok p := by
      simp only [Decoder.runText, htext, hread, bind, Except.bind, hrest, if_true]
      rfl
    simp only [CommandLine.load, hrun]

def negatedNull : Program where
  tables := [⟨"hosts", [⟨"id", .string, false⟩]⟩]
  views := [⟨"idle", [.aliased (.unary .not (.literal .null)) "x"]⟩]

/-- A spelling with arrays for structures, a default left out, another name of a kind, members in
another order and an unknown one, and objects for names of alternatives. -/
def negatedNullSpelling : Json :=
  .arr [.arr [.arr [.str "hosts", .arr [.arr [.str "id", .str " varchar "]]]],
    .arr [.obj [("select", .arr [.obj [("Aliased", .arr [.obj [("Unary", .obj [
        ("arg", .obj [("Literal", .obj [("Null", .null)])]), ("op", .obj [("Not", .null)])])],
        .str "x"])]]),
      ("rank", .nat 0), ("name", .str "idle")]]]

theorem negatedNull_spelling : negatedNull.spellings .objectOrArray negatedNullSpelling := by
  have hvarchar : Kind.ofName? " varchar " = some .string := by decide +kernel
  simp [negatedNull, negatedNullSpelling, Program.spellings, Table.spellings, Column.spellings,
    View.spellings, Expr.spellings, Literal.spellings, Kind.spellings, UnaryOp.name,
    Spellings.struct, Spellings.body, Spellings.list, Spellings.tagged, Spellings.unit,
    Spellings.Items, Spellings.Members, required, hvarchar]

/-- The program is decoded from that spelling, and the empty program from the text of an empty
array. -/
theorem decode_spelling_negatedNull :
    (negatedNull.FloatFree ∧ negatedNull.spellings .objectOrArray negatedNullSpelling ∧
      Program.decoder .objectOrArray CommandLine.nestingLimit negatedNullSpelling.reading =
        .ok negatedNull) ∧
    ∀ faultText, CommandLine.load faultText "program.json" (.ok " [] ") = .ok {} := by
  have hfloatFree : negatedNull.FloatFree := by
    simp [FloatFree, negatedNull, Expr.literals]
  have hempty : FloatFree {} := fun v hv => by cases hv
  have hspelling : Program.spellings .objectOrArray {} (.arr []) := .inr ⟨[], by
    simp [Spellings.Items], rfl⟩
  have htext : Reading.ofText " [] " = ((Json.arr []).reading, [' ']) := rfl
  have hdepth : negatedNullSpelling.reading.depth ≤ CommandLine.nestingLimit := by decide +kernel
  refine ⟨⟨hfloatFree, negatedNull_spelling, ?_⟩, ?_⟩
  · exact (decode_spelling hfloatFree).2.1 _ _ negatedNull_spelling _ hdepth
  · intro faultText
    exact (decode_spelling hempty).2.2 _ hspelling faultText _ _ _ htext rfl (by decide)

end Program

end ViewTyping
