import ViewTyping.Proofs.JsonGrammar

/-!
# What is read of a text that breaks off

A reader that goes from left to right sees no more of a text than its part up to the first place
where it stops being JSON. `Begins r r'` says that `r` can be what is seen of a text of which more
is seen in `r'`: they agree on what is complete in `r`, and `r'` may go on behind it.

* `exists_valuePrefix`: of every text, what is read shows already in a part of it that some JSON
  text begins with, and in whatever stands behind that part and a blank.
* `ofText_prefix`: the same for whole texts.
-/

set_option autoImplicit false

namespace ViewTyping.Json.Reading

/-! ## Readings of which more may be seen -/

/-- The last of the items may be seen only in part. -/
inductive ItemsBegin (R : Reading → Reading → Prop) : List Reading → List Reading → Prop
  | last {r r' : Reading} (h : R r r') (rs : List Reading) : ItemsBegin R [r] (r' :: rs)
  | cons (r : Reading) {rs rs' : List Reading} (h : ItemsBegin R rs rs') :
      ItemsBegin R (r :: rs) (r :: rs')

/-- The last of the members may be seen only in part, or none at all. -/
inductive MembersBegin (R : Reading → Reading → Prop) :
    List (Option String × Reading) → List (Option String × Reading) → Prop
  | nil (ms : List (Option String × Reading)) : MembersBegin R [] ms
  | last (name : Option String) {r r' : Reading} (h : R r r')
      (ms : List (Option String × Reading)) : MembersBegin R [(name, r)] ((name, r') :: ms)
  | cons (m : Option String × Reading) {ms ms' : List (Option String × Reading)}
      (h : MembersBegin R ms ms') : MembersBegin R (m :: ms) (m :: ms')

/-- More of the text that is read as the first may be seen in the second. -/
inductive Begins : Reading → Reading → Prop
  | refl (r : Reading) : Begins r r
  | broken (r : Reading) : Begins .broken r
  /-- Behind an opening bracket there may be no item at all. -/
  | bracket (items : List Reading) (ending : Ending) :
      Begins (.arr [.broken] .cut) (.arr items ending)
  | arr {items items' : List Reading} (h : ItemsBegin Begins items items') (ending : Ending) :
      Begins (.arr items .cut) (.arr items' ending)
  | obj {ms ms' : List (Option String × Reading)} (h : MembersBegin Begins ms ms')
      (ending : Ending) : Begins (.obj ms .cut) (.obj ms' ending)

/-! ## One step on any text -/

section
variable {fuel : Nat} {cs cs' : List Char}

theorem readValue_bracket (h : skipSpace cs = '[' :: cs') :
    ∃ items ending, (readValue (fuel + 1) cs).1 = .arr items ending := by
  simp only [readValue, h]
  split
  · exact ⟨_, _, rfl⟩
  · exact ⟨_, _, rfl⟩

theorem readValue_brace (h : skipSpace cs = '\x7b' :: cs') :
    ∃ ms ending, (readValue (fuel + 1) cs).1 = .obj ms ending := by
  simp only [readValue, h]
  split
  · exact ⟨_, _, rfl⟩
  · exact ⟨_, _, rfl⟩

theorem readItems_head (fuel : Nat) (cs : List Char) :
    ∃ rs, (readItems (fuel + 1) cs).1 = (readValue fuel cs).1 :: rs := by
  simp only [readItems]
  split
  · exact ⟨_, rfl⟩
  · exact ⟨_, rfl⟩
  · exact ⟨_, rfl⟩

theorem readMembers_head {name : Option String} {r : Reading} {after : List Char}
    (h : MemberAt fuel cs name r after) :
    ∃ ms, (readMembers (fuel + 1) cs).1 = (name, r) :: ms := by
  obtain ⟨_, _, _, h₁, h₂, h₃, h₄⟩ := h
  simp only [readMembers, h₁, h₂, h₃, h₄]
  split
  · exact ⟨_, rfl⟩
  · exact ⟨_, rfl⟩
  · exact ⟨_, rfl⟩

theorem readMembers_name {name : Option String} {tail rest : List Char}
    (h : skipSpace cs = '"' :: tail) (hname : readString tail = some (name, rest)) :
    ∃ r ms, (readMembers (fuel + 1) cs).1 = (name, r) :: ms := by
  by_cases hcolon : ∃ body, skipSpace rest = ':' :: body
  · obtain ⟨body, hbody⟩ := hcolon
    obtain ⟨ms, hms⟩ := readMembers_head ⟨tail, rest, body, h, hname, hbody, rfl⟩
    exact ⟨_, ms, hms⟩
  · refine ⟨.broken, [], ?_⟩
    simp only [readMembers, h, hname]
    split
    · rename_i body hbody
      exact absurd ⟨body, hbody⟩ hcolon
    · rfl

end

/-! ## The part of a text that shows what is read -/

/-- A part of a text that starts, behind blanks, like a value or a name. -/
def Opens (pre : List Char) : Prop := ∃ gap c tail, Blank gap ∧ Opener c ∧ pre = gap ++ c :: tail

theorem Opens.append {pre : List Char} (h : Opens pre) (cs : List Char) : Opens (pre ++ cs) := by
  obtain ⟨gap, c, tail, hgap, hc, rfl⟩ := h
  exact ⟨gap, c, tail ++ cs, hgap, hc, by simp⟩

theorem Opens.skipSpace_eq {pre : List Char} (h : Opens pre) :
    ∃ c tail, Opener c ∧ skipSpace pre = c :: tail := by
  obtain ⟨gap, c, tail, hgap, hc, rfl⟩ := h
  exact ⟨c, tail, hc, by rw [skipSpace_append hgap, skipSpace_cons hc.visible]⟩

theorem Opens.skipSpace_ne_bracket {pre : List Char} (h : Opens pre) (rest : List Char) :
    skipSpace pre ≠ ']' :: rest := by
  obtain ⟨c, tail, hc, heq⟩ := h.skipSpace_eq
  rw [heq]
  intro h'
  exact hc.not_bracket (List.cons.inj h').1

theorem Opens.skipSpace_ne_brace {pre : List Char} (h : Opens pre) (rest : List Char) :
    skipSpace pre ≠ '\x7d' :: rest := by
  obtain ⟨c, tail, hc, heq⟩ := h.skipSpace_eq
  rw [heq]
  intro h'
  exact hc.not_brace (List.cons.inj h').1

theorem opens_written {r : Reading} {gap value : List Char} (hgap : Blank gap)
    (h : r.Written value) : Opens (gap ++ value) := by
  obtain ⟨c, tail, rfl, hc⟩ := written_head h
  exact ⟨gap, c, tail, hgap, hc, rfl⟩

/-- Whatever stands behind `pre` and a blank, `r` is read in part, and something can stand there
that makes it a value. -/
structure ValuePrefix (r : Reading) (pre : List Char) : Prop where
  closing : ∃ closing r', Padded (Written r') (pre ++ ' ' :: closing)
  begins : ∀ (cont : List Char) (fuel : Nat), 2 * (pre ++ ' ' :: cont).length + 1 ≤ fuel →
    Begins r (readValue fuel (pre ++ ' ' :: cont)).1

structure ItemsPrefix (rs : List Reading) (pre : List Char) : Prop where
  closing : ∃ closing rs', WrittenItems rs' (pre ++ ' ' :: closing)
  begins : ∀ (cont : List Char) (fuel : Nat), 2 * (pre ++ ' ' :: cont).length + 2 ≤ fuel →
    ItemsBegin Begins rs (readItems fuel (pre ++ ' ' :: cont)).1

structure MembersPrefix (ms : List (Option String × Reading)) (pre : List Char) : Prop where
  closing : ∃ closing ms', WrittenMembers ms' (pre ++ ' ' :: closing)
  begins : ∀ (cont : List Char) (fuel : Nat), 2 * (pre ++ ' ' :: cont).length + 2 ≤ fuel →
    MembersBegin Begins ms (readMembers fuel (pre ++ ' ' :: cont)).1

theorem stops_space (cont : List Char) : Numeral.Stops (' ' :: cont) :=
  Numeral.stops_cons (by decide) (by decide) (by decide) (by decide)

theorem skipSpace_opening {gap : List Char} {c : Char} (hgap : Blank gap) (hc : isSpace c = false)
    (pre cs : List Char) : skipSpace (gap ++ c :: pre ++ cs) = c :: (pre ++ cs) := by
  rw [List.append_assoc, skipSpace_append hgap, List.cons_append, skipSpace_cons hc]

/-! ### Values -/

/-- Anything may stand where nothing is read. -/
theorem valuePrefix_broken : ValuePrefix .broken [] where
  closing :=
    ⟨['n', 'u', 'l', 'l'], .null, [' '], _, [], blank_space, by rw [Written], blank_nil, rfl⟩
  begins _ _ _ := .broken _

/-- A complete value is read as it is, whatever stands behind it and a blank. -/
theorem valuePrefix_written {r : Reading} {gap value : List Char} (hgap : Blank gap)
    (h : r.Written value) : ValuePrefix r (gap ++ value) where
  closing := ⟨[], r, gap, value, [' '], hgap, h, blank_space, rfl⟩
  begins cont fuel hfuel := by
    simp only [List.append_assoc, List.length_append] at hfuel
    rw [List.append_assoc, readValue_written h hgap (stops_space cont) (by omega)]
    exact .refl r

theorem valuePrefix_bracket {gap : List Char} (hgap : Blank gap) :
    ValuePrefix (.arr [.broken] .cut) (gap ++ ['[']) where
  closing := by
    refine ⟨[']'], .arr [] .closed, gap, ['[', ' ', ']'], [], hgap, ?_, blank_nil, by simp⟩
    rw [Written]
    exact ⟨[' '], .inl ⟨rfl, blank_space⟩, rfl⟩
  begins cont fuel hfuel := by
    obtain ⟨fuel, rfl⟩ : ∃ n, fuel = n + 1 := ⟨fuel - 1, by omega⟩
    obtain ⟨items, ending, heq⟩ := readValue_bracket (skipSpace_opening hgap rfl [] (' ' :: cont))
    rw [heq]
    exact .bracket items ending

theorem valuePrefix_arr {items : List Reading} {gap pre : List Char} (hgap : Blank gap)
    (hopens : Opens pre) (h : ItemsPrefix items pre) :
    ValuePrefix (.arr items .cut) (gap ++ '[' :: pre) where
  closing := by
    obtain ⟨closing, items', hitems⟩ := h.closing
    refine ⟨closing ++ [']'], .arr items' .closed, gap, '[' :: (pre ++ ' ' :: closing ++ [']']), [],
      hgap, ?_, blank_nil, by simp⟩
    rw [Written]
    exact ⟨_, .inr hitems, rfl⟩
  begins cont fuel hfuel := by
    obtain ⟨fuel, rfl⟩ : ∃ n, fuel = n + 1 := ⟨fuel - 1, by omega⟩
    rw [readValue_array (skipSpace_opening hgap rfl pre _) (hopens.append _).skipSpace_ne_bracket]
    refine .arr (h.begins cont fuel ?_) _
    simp only [List.length_append, List.length_cons] at hfuel ⊢
    omega

theorem valuePrefix_brace {gap : List Char} (hgap : Blank gap) :
    ValuePrefix (.obj [] .cut) (gap ++ ['\x7b']) where
  closing := by
    refine ⟨['\x7d'], .obj [] .closed, gap, ['\x7b', ' ', '\x7d'], [], hgap, ?_, blank_nil, by simp⟩
    rw [Written]
    exact ⟨[' '], .inl ⟨rfl, blank_space⟩, rfl⟩
  begins cont fuel hfuel := by
    obtain ⟨fuel, rfl⟩ : ∃ n, fuel = n + 1 := ⟨fuel - 1, by omega⟩
    obtain ⟨ms, ending, heq⟩ := readValue_brace (skipSpace_opening hgap rfl [] (' ' :: cont))
    rw [heq]
    exact .obj (.nil ms) ending

theorem valuePrefix_obj {ms : List (Option String × Reading)} {gap pre : List Char}
    (hgap : Blank gap) (hopens : Opens pre) (h : MembersPrefix ms pre) :
    ValuePrefix (.obj ms .cut) (gap ++ '\x7b' :: pre) where
  closing := by
    obtain ⟨closing, ms', hms⟩ := h.closing
    refine ⟨closing ++ ['\x7d'], .obj ms' .closed, gap,
      '\x7b' :: (pre ++ ' ' :: closing ++ ['\x7d']), [], hgap, ?_, blank_nil, by simp⟩
    rw [Written]
    exact ⟨_, .inr hms, rfl⟩
  begins cont fuel hfuel := by
    obtain ⟨fuel, rfl⟩ : ∃ n, fuel = n + 1 := ⟨fuel - 1, by omega⟩
    rw [readValue_object (skipSpace_opening hgap rfl pre _) (hopens.append _).skipSpace_ne_brace]
    refine .obj (h.begins cont fuel ?_) _
    simp only [List.length_append, List.length_cons] at hfuel ⊢
    omega

/-! ### Items -/

theorem itemsPrefix_last {r : Reading} {pre : List Char} (h : ValuePrefix r pre) :
    ItemsPrefix [r] pre where
  closing := by
    obtain ⟨closing, r', hr⟩ := h.closing
    refine ⟨closing, [r'], ?_⟩
    rw [WrittenItems]
    exact ⟨_, [], hr, by simp, .inl ⟨rfl, rfl⟩⟩
  begins cont fuel hfuel := by
    obtain ⟨fuel, rfl⟩ : ∃ n, fuel = n + 1 := ⟨fuel - 1, by omega⟩
    obtain ⟨rs, heq⟩ := readItems_head fuel (pre ++ ' ' :: cont)
    rw [heq]
    exact .last (h.begins cont fuel (by omega)) rs

theorem itemsPrefix_cons {r : Reading} {rs : List Reading} {gap value gap' pre : List Char}
    (hgap : Blank gap) (hr : r.Written value) (hgap' : Blank gap') (h : ItemsPrefix rs pre) :
    ItemsPrefix (r :: rs) (gap ++ (value ++ (gap' ++ ',' :: pre))) where
  closing := by
    obtain ⟨closing, rs', hrs⟩ := h.closing
    refine ⟨closing, r :: rs', ?_⟩
    rw [WrittenItems]
    exact ⟨_, _, ⟨gap, value, gap', hgap, hr, hgap', rfl⟩, by simp, .inr ⟨_, hrs, rfl⟩⟩
  begins cont fuel hfuel := by
    obtain ⟨fuel, rfl⟩ : ∃ n, fuel = n + 1 := ⟨fuel - 1, by omega⟩
    have hstops : Numeral.Stops (gap' ++ ',' :: (pre ++ ' ' :: cont)) :=
      Numeral.stops_separator hgap' (by decide)
    simp only [List.append_assoc, List.cons_append, List.length_append, List.length_cons] at hfuel ⊢
    rw [readItems_cons (readValue_written hr hgap hstops (by omega)) (skipSpace_append hgap')]
    refine .cons r (h.begins cont fuel ?_)
    simp only [List.length_append, List.length_cons]
    omega

/-! ### Members -/

theorem membersPrefix_nil : MembersPrefix [] [] where
  closing := by
    refine ⟨['"', '"', ':', 'n', 'u', 'l', 'l'], [(some "", .null)], ?_⟩
    rw [WrittenMembers]
    exact ⟨[' ', '"', '"'], ['n', 'u', 'l', 'l'], [],
      ⟨[' '], ['"', '"'], [], blank_space, ⟨[], [], .nil, rfl, rfl⟩, blank_nil, rfl⟩,
      ⟨[], _, [], blank_nil, by rw [Written], blank_nil, rfl⟩, rfl, .inl ⟨rfl, rfl⟩⟩
  begins _ _ _ := .nil _

theorem membersPrefix_name {name : Option String} {gap label : List Char} (hgap : Blank gap)
    (hname : StringWritten name label) : MembersPrefix [(name, .broken)] (gap ++ label) where
  closing := by
    refine ⟨[':', 'n', 'u', 'l', 'l'], [(name, .null)], ?_⟩
    rw [WrittenMembers]
    exact ⟨_, ['n', 'u', 'l', 'l'], [], ⟨gap, label, [' '], hgap, hname, blank_space, rfl⟩,
      ⟨[], _, [], blank_nil, by rw [Written], blank_nil, rfl⟩, by simp, .inl ⟨rfl, rfl⟩⟩
  begins cont fuel hfuel := by
    obtain ⟨fuel, rfl⟩ : ∃ n, fuel = n + 1 := ⟨fuel - 1, by omega⟩
    obtain ⟨tail, rfl, hread⟩ := readString_written hname
    obtain ⟨r, ms, heq⟩ := readMembers_name (skipSpace_opening hgap rfl tail _) (hread _)
    rw [heq]
    exact .last name (.broken r) ms

theorem membersPrefix_last {name : Option String} {r : Reading} {label pre : List Char}
    (hname : Padded (StringWritten name) label) (h : ValuePrefix r pre) :
    MembersPrefix [(name, r)] (label ++ ':' :: pre) where
  closing := by
    obtain ⟨closing, r', hr⟩ := h.closing
    refine ⟨closing, [(name, r')], ?_⟩
    rw [WrittenMembers]
    exact ⟨label, _, [], hname, hr, by simp, .inl ⟨rfl, rfl⟩⟩
  begins cont fuel hfuel := by
    obtain ⟨fuel, rfl⟩ : ∃ n, fuel = n + 1 := ⟨fuel - 1, by omega⟩
    simp only [List.append_assoc, List.cons_append, List.length_append, List.length_cons] at hfuel ⊢
    obtain ⟨ms, heq⟩ := readMembers_head
      (memberAt_padded hname (rfl : readValue fuel (pre ++ ' ' :: cont) = _))
    rw [heq]
    refine .last name (h.begins cont fuel ?_) ms
    simp only [List.length_append, List.length_cons]
    omega

theorem membersPrefix_cons {name : Option String} {r : Reading}
    {ms : List (Option String × Reading)} {label gap value gap' pre : List Char}
    (hname : Padded (StringWritten name) label) (hgap : Blank gap) (hr : r.Written value)
    (hgap' : Blank gap') (h : MembersPrefix ms pre) :
    MembersPrefix ((name, r) :: ms) (label ++ ':' :: (gap ++ (value ++ (gap' ++ ',' :: pre)))) where
  closing := by
    obtain ⟨closing, ms', hms⟩ := h.closing
    refine ⟨closing, (name, r) :: ms', ?_⟩
    rw [WrittenMembers]
    exact ⟨label, _, _, hname, ⟨gap, value, gap', hgap, hr, hgap', rfl⟩, by simp,
      .inr ⟨_, hms, rfl⟩⟩
  begins cont fuel hfuel := by
    obtain ⟨fuel, rfl⟩ : ∃ n, fuel = n + 1 := ⟨fuel - 1, by omega⟩
    have hstops : Numeral.Stops (gap' ++ ',' :: (pre ++ ' ' :: cont)) :=
      Numeral.stops_separator hgap' (by decide)
    simp only [List.append_assoc, List.cons_append, List.length_append, List.length_cons] at hfuel ⊢
    rw [readMembers_cons (memberAt_padded hname (readValue_written hr hgap hstops (by omega)))
      (skipSpace_append hgap')]
    refine .cons (name, r) (h.begins cont fuel ?_)
    simp only [List.length_append, List.length_cons]
    omega

/-! ### Texts -/

theorem opener_bracket : Opener '[' := ⟨by decide, by decide, by decide⟩

theorem opener_brace : Opener '\x7b' := ⟨by decide, by decide, by decide⟩

theorem opens_name {name : Option String} {gap label : List Char} (hgap : Blank gap)
    (hname : StringWritten name label) : Opens (gap ++ label) := by
  obtain ⟨tail, rfl, -⟩ := readString_written hname
  exact ⟨gap, '"', tail, hgap, ⟨by decide, by decide, by decide⟩, rfl⟩

theorem opens_padded {name : Option String} {label : List Char}
    (hname : Padded (StringWritten name) label) : Opens label := by
  obtain ⟨gap, label, gap', hgap, hname, -, rfl⟩ := hname
  exact (opens_name hgap hname).append gap'

mutual

/-- **What is read of a text shows in a part of it that some JSON text begins with.** By induction
on the calls of the reader. -/
theorem exists_valuePrefix : ∀ (fuel : Nat) (cs : List Char), 2 * cs.length + 1 ≤ fuel →
    ∃ pre, pre <+: cs ∧ ValuePrefix (readValue fuel cs).1 pre ∧
      ((readValue fuel cs).1 = .broken ∨ Opens pre)
  | 0, cs, hfuel => by omega
  | fuel + 1, cs, hfuel => by
    obtain ⟨r, rest, hr⟩ : ∃ r rest, readValue (fuel + 1) cs = (r, rest) := ⟨_, _, rfl⟩
    rw [hr]
    rcases written_of_readValue hr with ⟨gap, value, hgap, hvalue, rfl⟩ | ⟨hincomplete, -⟩
    · exact ⟨gap ++ value, by simp, valuePrefix_written hgap hvalue,
        .inr (opens_written hgap hvalue)⟩
    · have hstep := readValue_step fuel cs
      rw [hr] at hstep
      cases hstep with
      | whole _ h _ => exact absurd (isComplete_of_written h) (by simp [hincomplete])
      | @array gap body hgap hcs =>
        have hcut : (readItems fuel body).2.1 = .cut := by
          rcases written_of_readItems (rfl : readItems fuel body = _) with
            ⟨hending, items, hitems, -⟩ | ⟨hending, -⟩
          · rw [hending, isComplete, itemsComplete_of_written hitems] at hincomplete
            cases hincomplete
          · exact hending
        obtain ⟨pre, ⟨post, hbody⟩, hpre, hopens⟩ := exists_itemsPrefix fuel body (by
          simp only [hcs, List.length_append, List.length_cons] at hfuel
          omega) hcut
        rw [hcut]
        rcases hopens with hitems | hopens
        · rw [hitems]
          exact ⟨gap ++ ['['], ⟨body, by simp [hcs]⟩, valuePrefix_bracket hgap,
            .inr ⟨gap, '[', [], hgap, opener_bracket, rfl⟩⟩
        · exact ⟨gap ++ '[' :: pre, ⟨post, by simp [hcs, ← hbody]⟩,
            valuePrefix_arr hgap hopens hpre, .inr ⟨gap, '[', pre, hgap, opener_bracket, rfl⟩⟩
      | @object gap body hgap hcs =>
        have hcut : (readMembers fuel body).2.1 = .cut := by
          rcases written_of_readMembers (rfl : readMembers fuel body = _) with
            ⟨hending, ms, hms, -⟩ | ⟨hending, -⟩
          · rw [hending, isComplete, membersComplete_of_written hms] at hincomplete
            cases hincomplete
          · exact hending
        obtain ⟨pre, ⟨post, hbody⟩, hpre, hopens⟩ := exists_membersPrefix fuel body (by
          simp only [hcs, List.length_append, List.length_cons] at hfuel
          omega) hcut
        rw [hcut]
        rcases hopens with hms | hopens
        · rw [hms]
          exact ⟨gap ++ ['\x7b'], ⟨body, by simp [hcs]⟩, valuePrefix_brace hgap,
            .inr ⟨gap, '\x7b', [], hgap, opener_brace, rfl⟩⟩
        · exact ⟨gap ++ '\x7b' :: pre, ⟨post, by simp [hcs, ← hbody]⟩,
            valuePrefix_obj hgap hopens hpre, .inr ⟨gap, '\x7b', pre, hgap, opener_brace, rfl⟩⟩
      | broken => exact ⟨[], List.nil_prefix, valuePrefix_broken, .inl rfl⟩

theorem exists_itemsPrefix : ∀ (fuel : Nat) (cs : List Char), 2 * cs.length + 2 ≤ fuel →
    (readItems fuel cs).2.1 = .cut →
    ∃ pre, pre <+: cs ∧ ItemsPrefix (readItems fuel cs).1 pre ∧
      ((readItems fuel cs).1 = [.broken] ∨ Opens pre)
  | 0, cs, hfuel, _ => by omega
  | fuel + 1, cs, hfuel, hcut => by
    have hstep := readItems_step fuel cs
    generalize readItems (fuel + 1) cs = result at hstep hcut ⊢
    cases hstep with
    | last => cases hcut
    | @cons r gap' after rest hr hgap' hafter =>
      rcases written_of_readValue hr with ⟨gap, value, hgap, hvalue, rfl⟩ | ⟨-, rfl⟩
      · obtain ⟨pre, ⟨post, rfl⟩, hpre, -⟩ := exists_itemsPrefix fuel rest (by
          simp only [hafter, List.length_append, List.length_cons] at hfuel
          omega) hcut
        refine ⟨_, ?_, itemsPrefix_cons hgap hvalue hgap' hpre, .inr ?_⟩
        · exact ⟨post, by simp [hafter]⟩
        · rw [← List.append_assoc]
          exact (opens_written hgap hvalue).append _
      · simp at hafter
    | @cut r after hr =>
      obtain ⟨pre, hprefix, hpre, hopens⟩ := exists_valuePrefix fuel cs (by omega)
      rw [hr] at hpre hopens
      refine ⟨pre, hprefix, itemsPrefix_last hpre, ?_⟩
      rcases hopens with rfl | hopens
      · exact .inl rfl
      · exact .inr hopens

theorem exists_membersPrefix : ∀ (fuel : Nat) (cs : List Char), 2 * cs.length + 2 ≤ fuel →
    (readMembers fuel cs).2.1 = .cut →
    ∃ pre, pre <+: cs ∧ MembersPrefix (readMembers fuel cs).1 pre ∧
      ((readMembers fuel cs).1 = [] ∨ Opens pre)
  | 0, cs, hfuel, _ => by omega
  | fuel + 1, cs, hfuel, hcut => by
    have hstep := readMembers_step fuel cs
    generalize readMembers (fuel + 1) cs = result at hstep hcut ⊢
    cases hstep with
    | last => cases hcut
    | @cons name r label gap' body after rest hname hcs hr hgap' hafter =>
      rcases written_of_readValue hr with ⟨gap, value, hgap, hvalue, rfl⟩ | ⟨-, rfl⟩
      · obtain ⟨pre, ⟨post, rfl⟩, hpre, -⟩ := exists_membersPrefix fuel rest (by
          simp only [hcs, hafter, List.length_append, List.length_cons] at hfuel
          omega) hcut
        refine ⟨_, ?_, membersPrefix_cons hname hgap hvalue hgap' hpre,
          .inr ((opens_padded hname).append _)⟩
        exact ⟨post, by simp [hcs, hafter]⟩
      · simp at hafter
    | @cut name r label body after hname hcs hr =>
      obtain ⟨pre, ⟨post, hbody⟩, hpre, -⟩ := exists_valuePrefix fuel body (by
        simp only [hcs, List.length_append, List.length_cons] at hfuel
        omega)
      rw [hr] at hpre
      exact ⟨_, ⟨post, by simp [hcs, ← hbody]⟩, membersPrefix_last hname hpre,
        .inr ((opens_padded hname).append _)⟩
    | @bare name gap label rest hgap hname hcs =>
      exact ⟨_, ⟨rest, by simp [hcs]⟩, membersPrefix_name hgap hname, .inr (opens_name hgap hname)⟩
    | none => exact ⟨[], List.nil_prefix, membersPrefix_nil, .inl rfl⟩

end

/-- **What is read of a text is read in part of every text that goes on behind some beginning of
it**, and there is JSON among these texts. -/
theorem ofText_prefix (text : String) : ∃ pre, pre <+: text.toList ∧
    (∃ closing, IsJson (String.ofList (pre ++ ' ' :: closing))) ∧
    ∀ cont, Begins (ofText text).1 (ofText (String.ofList (pre ++ ' ' :: cont))).1 := by
  obtain ⟨pre, hprefix, ⟨⟨closing, r, hr⟩, hbegins⟩, -⟩ :=
    exists_valuePrefix (2 * text.length + 2) text.toList (by rw [String.length_toList]; omega)
  refine ⟨pre, hprefix, ⟨closing, r, ?_⟩, fun cont => ?_⟩
  · rw [Text, String.toList_ofList]
    exact hr
  · have := hbegins cont (2 * (pre ++ ' ' :: cont).length + 2) (by omega)
    rw [ofText, ofText, String.toList_ofList, String.length_ofList]
    exact this

end ViewTyping.Json.Reading
