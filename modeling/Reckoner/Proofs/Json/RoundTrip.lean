import Reckoner.Proofs.Json.Scalar

/-!
# Printing and reading JSON

What is printed is read back, however deep it is nested: blanks stand only where the reader
passes over them, and fuel for the length of the text is enough, since every bracket and
every comma that costs fuel is in the text.

* `Json.IsWellFormed`: the values with numbers that a text can have;
* `Json.Printer.length_le_value`: a value takes up text, and what follows it is left;
* `Json.Reader.ReadsBack`: some fuel reads back all values that are not longer, and their
  items and fields. With one more it still does (`ReadsBack.value_succ`,
  `ReadsBack.items_succ`, `ReadsBack.fields_succ`);
* `Json.read?_pretty`: whole texts.
-/

namespace Reckoner

/-- A value whose numbers are well formed. -/
inductive Json.IsWellFormed : Json → Prop
  | null : IsWellFormed .null
  | bool (b : Bool) : IsWellFormed (.bool b)
  | number {n : Numeral} : n.IsWellFormed → IsWellFormed (.number n)
  | string (s : Json.Text) : IsWellFormed (.string s)
  | array {vs : List Json} : (∀ v ∈ vs, IsWellFormed v) → IsWellFormed (.array vs)
  | object {fs : List (Json.Text × Json)} : (∀ f ∈ fs, IsWellFormed f.2) →
    IsWellFormed (.object fs)

namespace Json.Reader

/-! ## Blanks -/

theorem skipBlanks_line (level : Nat) (rest : List Char) :
    skipBlanks (Printer.line level rest) = skipBlanks rest := by
  have hblanks : ∀ c ∈ '\n' :: List.replicate (2 * level) ' ', isBlank c = true := by
    intro c hc
    rcases List.mem_cons.mp hc with rfl | hc
    · rfl
    · rw [List.eq_of_mem_replicate hc]
      rfl
  exact List.dropWhile_append_of_pos hblanks

theorem skipBlanks_cons {c : Char} (hc : isBlank c = false) (rest : List Char) :
    skipBlanks (c :: rest) = c :: rest := by
  simp [skipBlanks, hc]

theorem skipBlanks_blank (rest : List Char) : skipBlanks (' ' :: rest) = skipBlanks rest := rfl

/-- Blanks before a value are passed over. -/
theorem value?_congr {cs cs' : List Char} (h : skipBlanks cs = skipBlanks cs') (fuel : Nat) :
    value? fuel cs = value? fuel cs' := by
  cases fuel with
  | zero => rfl
  | succ fuel => rw [value?, value?, h]

theorem fields?_congr {cs cs' : List Char} (h : skipBlanks cs = skipBlanks cs') (fuel : Nat) :
    fields? fuel cs = fields? fuel cs' := by
  cases fuel with
  | zero => rfl
  | succ fuel => rw [fields?, fields?, h]

theorem ends_line (level : Nat) (rest : List Char) : Ends (Printer.line level rest) := by
  rw [Printer.line]
  exact ends_cons (by decide)

theorem isBlank_of_number {c : Char} (hc : c = '-' ∨ c.isDigit = true) : isBlank c = false := by
  by_contra hblank
  simp only [isBlank, Bool.not_eq_false, Bool.or_eq_true, decide_eq_true_eq] at hblank
  rcases hblank with ((rfl | rfl) | rfl) | rfl <;> revert hc <;> decide

/-- A value begins with a character that is no blank and closes nothing. -/
theorem exists_head_value {v : Json} (hv : v.IsWellFormed) (level : Nat) (rest : List Char) :
    ∃ c cs, Printer.value level v rest = c :: cs ∧ isBlank c = false ∧ c ≠ ']' := by
  cases hv with
  | null => exact ⟨_, _, rfl, by decide, by decide⟩
  | bool b => cases b <;> exact ⟨_, _, rfl, by decide, by decide⟩
  | number hn =>
    obtain ⟨c, cs, hcs, hc⟩ := exists_head_chars hn
    refine ⟨c, cs ++ rest, by rw [Printer.value, hcs]; rfl, isBlank_of_number hc, ?_⟩
    rintro rfl
    revert hc
    decide
  | string s => cases s <;> exact ⟨_, _, rfl, by decide, by decide⟩
  | @array vs _ => cases vs <;> exact ⟨_, _, by rw [Printer.value], by decide, by decide⟩
  | @object fs _ => cases fs <;> exact ⟨_, _, by rw [Printer.value], by decide, by decide⟩

end Json.Reader

/-! ## Lengths -/

namespace Json.Printer

theorem length_line (level : Nat) (rest : List Char) :
    (line level rest).length = rest.length + 2 * level + 1 := by
  simp [line]
  omega

theorem length_lt_text (s : Json.Text) (rest : List Char) :
    rest.length < (text s rest).length := by
  cases s <;> simp only [text, List.length_cons, List.length_append, List.cons_append] <;> omega

mutual

/-- What follows a value is not longer than the whole. -/
theorem length_le_value (level : Nat) (v : Json) (rest : List Char) :
    rest.length ≤ (value level v rest).length := by
  match v with
  | .null | .bool true | .bool false | .array [] | .object [] =>
    simp only [value, List.length_cons]
    omega
  | .number n =>
    rw [value, List.length_append]
    exact Nat.le_add_left ..
  | .string s => exact Nat.le_of_lt (length_lt_text s rest)
  | .array (v :: vs) =>
    have hvalue := length_le_value (level + 1) v (items level vs (line level (']' :: rest)))
    have hitems := length_le_items level vs (line level (']' :: rest))
    simp only [value, List.length_cons, length_line] at *
    omega
  | .object ((name, v) :: fs) =>
    have hvalue := length_le_value (level + 1) v (fields level fs (line level ('\x7d' :: rest)))
    have hfields := length_le_fields level fs (line level ('\x7d' :: rest))
    have hname := length_lt_text name (':' :: ' ' ::
      value (level + 1) v (fields level fs (line level ('\x7d' :: rest))))
    simp only [value, List.length_cons, length_line] at *
    omega

theorem length_le_items (level : Nat) (vs : List Json) (rest : List Char) :
    rest.length ≤ (items level vs rest).length := by
  match vs with
  | [] => exact Nat.le_of_eq (by rw [items])
  | v :: vs =>
    have hvalue := length_le_value (level + 1) v (items level vs rest)
    have hitems := length_le_items level vs rest
    simp only [items, List.length_cons, length_line]
    omega

theorem length_le_fields (level : Nat) (fs : List (Json.Text × Json)) (rest : List Char) :
    rest.length ≤ (fields level fs rest).length := by
  match fs with
  | [] => exact Nat.le_of_eq (by rw [fields])
  | (name, v) :: fs =>
    have hvalue := length_le_value (level + 1) v (fields level fs rest)
    have hfields := length_le_fields level fs rest
    have hname := length_lt_text name (':' :: ' ' :: value (level + 1) v (fields level fs rest))
    simp only [fields, List.length_cons, length_line] at *
    omega

end

/-- What is printed after the first item of an array. -/
def itemsEnd (level : Nat) (vs : List Json) (rest : List Char) : List Char :=
  items level vs (line level (']' :: rest))

/-- What is printed after the first field of an object. -/
def fieldsEnd (level : Nat) (fs : List (Json.Text × Json)) (rest : List Char) : List Char :=
  fields level fs (line level ('\x7d' :: rest))

theorem value_array (level : Nat) (v : Json) (vs : List Json) (rest : List Char) :
    value level (.array (v :: vs)) rest =
      '[' :: line (level + 1) (value (level + 1) v (itemsEnd level vs rest)) := by
  rw [value, itemsEnd]

theorem value_object (level : Nat) (name : Json.Text) (v : Json) (fs : List (Json.Text × Json))
    (rest : List Char) : value level (.object ((name, v) :: fs)) rest =
      '\x7b' :: line (level + 1) (text name (':' :: ' ' ::
        value (level + 1) v (fieldsEnd level fs rest))) := by
  rw [value, fieldsEnd]

theorem itemsEnd_nil (level : Nat) (rest : List Char) :
    itemsEnd level [] rest = line level (']' :: rest) := by
  rw [itemsEnd, items]

theorem itemsEnd_cons (level : Nat) (v : Json) (vs : List Json) (rest : List Char) :
    itemsEnd level (v :: vs) rest =
      ',' :: line (level + 1) (value (level + 1) v (itemsEnd level vs rest)) := by
  rw [itemsEnd, items, itemsEnd]

theorem fieldsEnd_nil (level : Nat) (rest : List Char) :
    fieldsEnd level [] rest = line level ('\x7d' :: rest) := by
  rw [fieldsEnd, fields]

theorem fieldsEnd_cons (level : Nat) (name : Json.Text) (v : Json)
    (fs : List (Json.Text × Json)) (rest : List Char) :
    fieldsEnd level ((name, v) :: fs) rest =
      ',' :: line (level + 1) (text name (':' :: ' ' ::
        value (level + 1) v (fieldsEnd level fs rest))) := by
  rw [fieldsEnd, fields, fieldsEnd]

theorem length_lt_itemsEnd (level : Nat) (vs : List Json) (rest : List Char) :
    rest.length < (itemsEnd level vs rest).length := by
  have hitems := length_le_items level vs (line level (']' :: rest))
  rw [length_line, List.length_cons] at hitems
  rw [itemsEnd]
  omega

theorem length_lt_fieldsEnd (level : Nat) (fs : List (Json.Text × Json)) (rest : List Char) :
    rest.length < (fieldsEnd level fs rest).length := by
  have hfields := length_le_fields level fs (line level ('\x7d' :: rest))
  rw [length_line, List.length_cons] at hfields
  rw [fieldsEnd]
  omega

end Json.Printer

/-! ## Values -/

namespace Json

namespace Reader

theorem items?_congr {cs cs' : List Char} (h : skipBlanks cs = skipBlanks cs') (fuel : Nat) :
    items? fuel cs = items? fuel cs' := by
  cases fuel with
  | zero => rfl
  | succ fuel => rw [items?, items?, value?_congr h]

/-- What begins like a number is read as one. -/
theorem value?_number {c : Char} (hc : c = '-' ∨ c.isDigit = true) (cs : List Char)
    (fuel : Nat) : value? (fuel + 1) (c :: cs) =
      (numeral? (c :: cs)).map fun (n, rest) => (.number n, rest) := by
  rw [value?, skipBlanks_cons (isBlank_of_number hc)]
  split
  all_goals first
    | rfl
    | rename_i h
      obtain rfl := (List.cons.inj h).1
      exact absurd hc (by decide)

theorem value?_string (body : List Char) (fuel : Nat) : value? (fuel + 1) ('"' :: body) =
    (text? body).map fun (s, rest) => (.string s, rest) := by
  rw [value?, skipBlanks_cons (by decide)]
  rfl

theorem value?_array {c : Char} {cs rest : List Char} (h : skipBlanks cs = c :: rest)
    (hc : c ≠ ']') (fuel : Nat) : value? (fuel + 1) ('[' :: cs) =
      (items? fuel (c :: rest)).map fun (vs, rest) => (.array vs, rest) := by
  have hskip : skipBlanks ('[' :: cs) = '[' :: cs := skipBlanks_cons (by decide) cs
  simp [value?, hskip, h, hc]

theorem value?_object {c : Char} {cs rest : List Char} (h : skipBlanks cs = c :: rest)
    (hc : c ≠ '\x7d') (fuel : Nat) : value? (fuel + 1) ('\x7b' :: cs) =
      (fields? fuel (c :: rest)).map fun (fs, rest) => (.object fs, rest) := by
  have hskip : skipBlanks ('\x7b' :: cs) = '\x7b' :: cs := skipBlanks_cons (by decide) cs
  simp [value?, hskip, h, hc]

open Printer

theorem ends_itemsEnd (level : Nat) (vs : List Json) (rest : List Char) :
    Ends (itemsEnd level vs rest) := by
  cases vs with
  | nil =>
    rw [itemsEnd_nil]
    exact ends_line level _
  | cons v vs =>
    rw [itemsEnd_cons]
    exact ends_cons (by decide)

theorem ends_fieldsEnd (level : Nat) (fs : List (Json.Text × Json)) (rest : List Char) :
    Ends (fieldsEnd level fs rest) := by
  cases fs with
  | nil =>
    rw [fieldsEnd_nil]
    exact ends_line level _
  | cons f fs =>
    rw [fieldsEnd_cons]
    exact ends_cons (by decide)

/-- With this fuel every value is read back whose text is not longer, and so are the items
    and the fields that an opening bracket is followed by. -/
structure ReadsBack (fuel : Nat) : Prop where
  value : ∀ {v : Json} (level : Nat) {rest : List Char}, v.IsWellFormed → Ends rest →
    (value level v rest).length < fuel + rest.length →
    value? fuel (value level v rest) = some (v, rest)
  items : ∀ {v : Json} {vs : List Json} (level : Nat) (rest : List Char),
    (∀ u ∈ v :: vs, u.IsWellFormed) →
    (Printer.value (level + 1) v (itemsEnd level vs rest)).length + 1 < fuel + rest.length →
    items? fuel (Printer.value (level + 1) v (itemsEnd level vs rest)) = some (v :: vs, rest)
  fields : ∀ {name : Json.Text} {v : Json} {fs : List (Json.Text × Json)} (level : Nat)
    (rest : List Char), (∀ f ∈ (name, v) :: fs, f.2.IsWellFormed) →
    (text name (':' :: ' ' :: Printer.value (level + 1) v (fieldsEnd level fs rest))).length <
      fuel + rest.length →
    fields? fuel (text name (':' :: ' ' ::
      Printer.value (level + 1) v (fieldsEnd level fs rest))) = some ((name, v) :: fs, rest)

namespace ReadsBack

variable {fuel : Nat}

theorem zero : ReadsBack 0 where
  value {v} level rest _ _ hfuel := by
    have hlength := length_le_value level v rest
    omega
  items {v vs} level rest _ hfuel := by
    have hvalue := length_le_value (level + 1) v (itemsEnd level vs rest)
    have hitems := length_lt_itemsEnd level vs rest
    omega
  fields {name v fs} level rest _ hfuel := by
    have hname := length_lt_text name
      (':' :: ' ' :: Printer.value (level + 1) v (fieldsEnd level fs rest))
    have hvalue := length_le_value (level + 1) v (fieldsEnd level fs rest)
    have hfields := length_lt_fieldsEnd level fs rest
    rw [List.length_cons, List.length_cons] at hname
    omega

theorem value_succ (h : ReadsBack fuel) {v : Json} (hv : v.IsWellFormed) (level : Nat)
    {rest : List Char} (hr : Ends rest)
    (hfuel : (Printer.value level v rest).length < fuel + 1 + rest.length) :
    value? (fuel + 1) (Printer.value level v rest) = some (v, rest) := by
  cases hv with
  | null =>
    rw [Printer.value, value?, skipBlanks_cons (by decide)]
    rfl
  | bool b =>
    cases b
    all_goals
      rw [Printer.value, value?, skipBlanks_cons (by decide)]
      rfl
  | number hn =>
    obtain ⟨c, cs, hcs, hc⟩ := exists_head_chars hn
    have hread := numeral?_chars hn hr
    rw [hcs, List.cons_append] at hread
    rw [Printer.value, hcs, List.cons_append, value?_number hc, hread]
    rfl
  | string s =>
    obtain ⟨body, htext, hbody⟩ := text?_text s rest
    rw [Printer.value, htext, value?_string, hbody]
    rfl
  | @array vs hvs =>
    cases vs with
    | nil =>
      rw [Printer.value, value?, skipBlanks_cons (by decide)]
      rfl
    | cons v vs =>
      -- the first item closes nothing, so that the array is not taken for an empty one
      rw [value_array, List.length_cons, length_line] at hfuel
      have hitems := h.items level rest hvs (by omega)
      obtain ⟨c, cs, hcs, hblank, hc⟩ := exists_head_value (hvs v List.mem_cons_self) (level + 1)
        (itemsEnd level vs rest)
      have hskip : skipBlanks (line (level + 1)
          (Printer.value (level + 1) v (itemsEnd level vs rest))) = c :: cs := by
        rw [skipBlanks_line, hcs, skipBlanks_cons hblank]
      rw [value_array, value?_array hskip hc, ← hcs, hitems]
      rfl
  | @object fs hfs =>
    cases fs with
    | nil =>
      rw [Printer.value, value?, skipBlanks_cons (by decide)]
      rfl
    | cons f fs =>
      obtain ⟨name, v⟩ := f
      rw [value_object, List.length_cons, length_line] at hfuel
      have hfields := h.fields level rest hfs (by omega)
      obtain ⟨body, hbody, -⟩ := text?_text name
        (':' :: ' ' :: Printer.value (level + 1) v (fieldsEnd level fs rest))
      have hskip : skipBlanks (line (level + 1) (text name (':' :: ' ' ::
          Printer.value (level + 1) v (fieldsEnd level fs rest)))) = '"' :: body := by
        rw [skipBlanks_line, hbody, skipBlanks_cons (by decide)]
      rw [value_object, value?_object hskip (by decide), ← hbody, hfields]
      rfl

theorem items_succ (h : ReadsBack fuel) {v : Json} {vs : List Json}
    (hvs : ∀ u ∈ v :: vs, u.IsWellFormed) (level : Nat) {rest : List Char}
    (hfuel : (Printer.value (level + 1) v (itemsEnd level vs rest)).length + 1 <
      fuel + 1 + rest.length) :
    items? (fuel + 1) (Printer.value (level + 1) v (itemsEnd level vs rest)) =
      some (v :: vs, rest) := by
  have hlength := length_le_value (level + 1) v (itemsEnd level vs rest)
  have hitems := length_lt_itemsEnd level vs rest
  have hread := h.value (level + 1) (hvs v List.mem_cons_self) (ends_itemsEnd level vs rest)
    (by omega)
  rw [items?, hread]
  simp only [Option.bind_eq_bind, Option.bind_some]
  cases vs with
  | nil =>
    rw [itemsEnd_nil, skipBlanks_line, skipBlanks_cons (by decide)]
    rfl
  | cons u us =>
    -- the comma pays for the fuel that the first item has cost
    have hcomma : (itemsEnd level (u :: us) rest).length =
        (Printer.value (level + 1) u (itemsEnd level us rest)).length + 2 * (level + 1) + 2 := by
      rw [itemsEnd_cons, List.length_cons, length_line]
    have hnext := h.items level rest (fun w hw => hvs w (List.mem_cons_of_mem _ hw)) (by omega)
    rw [itemsEnd_cons, skipBlanks_cons (by decide)]
    show (items? fuel (line (level + 1) _)).map _ = _
    rw [items?_congr (skipBlanks_line ..), hnext]
    rfl

theorem fields_succ (h : ReadsBack fuel) {name : Json.Text} {v : Json}
    {fs : List (Json.Text × Json)} (hfs : ∀ f ∈ (name, v) :: fs, f.2.IsWellFormed) (level : Nat)
    {rest : List Char}
    (hfuel : (text name (':' :: ' ' ::
      Printer.value (level + 1) v (fieldsEnd level fs rest))).length < fuel + 1 + rest.length) :
    fields? (fuel + 1) (text name (':' :: ' ' ::
      Printer.value (level + 1) v (fieldsEnd level fs rest))) = some ((name, v) :: fs, rest) := by
  have hname := length_lt_text name
    (':' :: ' ' :: Printer.value (level + 1) v (fieldsEnd level fs rest))
  have hlength := length_le_value (level + 1) v (fieldsEnd level fs rest)
  have hfields := length_lt_fieldsEnd level fs rest
  rw [List.length_cons, List.length_cons] at hname
  have hv : v.IsWellFormed := hfs (name, v) List.mem_cons_self
  have hread := h.value (level + 1) hv (ends_fieldsEnd level fs rest) (by omega)
  obtain ⟨body, htext, hbody⟩ := text?_text name
    (':' :: ' ' :: Printer.value (level + 1) v (fieldsEnd level fs rest))
  have hread' := (value?_congr (skipBlanks_blank _) fuel).trans hread
  rw [htext, fields?, skipBlanks_cons (by decide)]
  simp only [hbody, Option.bind_eq_bind, Option.bind_some]
  rw [skipBlanks_cons (by decide)]
  simp only [hread', Option.bind_some]
  cases fs with
  | nil =>
    rw [fieldsEnd_nil, skipBlanks_line, skipBlanks_cons (by decide)]
    rfl
  | cons f fs =>
    obtain ⟨name', v'⟩ := f
    have hcomma : (fieldsEnd level ((name', v') :: fs) rest).length = (text name' (':' :: ' ' ::
        Printer.value (level + 1) v' (fieldsEnd level fs rest))).length + 2 * (level + 1) + 2 := by
      rw [fieldsEnd_cons, List.length_cons, length_line]
    have hnext := h.fields level rest (fun g hg => hfs g (List.mem_cons_of_mem _ hg)) (by omega)
    rw [fieldsEnd_cons, skipBlanks_cons (by decide)]
    show (fields? fuel (line (level + 1) _)).map _ = _
    rw [fields?_congr (skipBlanks_line ..), hnext]
    rfl

end ReadsBack

/-- Any fuel reads back what is not longer, since every reader calls the others with less. -/
theorem readsBack (fuel : Nat) : ReadsBack fuel := by
  induction fuel with
  | zero => exact .zero
  | succ fuel ih =>
    exact ⟨fun level _ hv hr hfuel => ih.value_succ hv level hr hfuel,
      fun level _ hvs hfuel => ih.items_succ hvs level hfuel,
      fun level _ hfs hfuel => ih.fields_succ hfs level hfuel⟩

end Reader

/-- What is printed is read back. -/
theorem read?_pretty {v : Json} (hv : v.IsWellFormed) : read? v.pretty = some v := by
  have hread := (Reader.readsBack (2 * (Printer.value 0 v []).length + 1)).value 0 hv
    Reader.ends_nil (by rw [List.length_nil]; omega)
  rw [read?, pretty, String.toList_ofList, Reader.document?, hread]
  rfl

end Json

end Reckoner
