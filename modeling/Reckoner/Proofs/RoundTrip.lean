import Reckoner.Proofs.Parser.Recognition
import Reckoner.Proofs.Token.Cutting
import Reckoner.Proofs.Token.Streaming

/-!
# Reading what was written

A complete tree is written with brackets around every operator. Read again, every bracket
is an atom of the grammar whose tree is the one that was written.

* `Tree.IsComplete`: the trees that are written without a placeholder;
* `Lexer.ReadsBack`: the tokens of the written form are derived from an atom with the tree.
  Every constructor keeps it, so that it holds of every complete tree
  (`Lexer.readsBack_of_isComplete`);
* `parse_render`: reading gives the tree back.
-/

namespace Reckoner

open Grammar

/-- A tree with all its parts, whose texts are those of its nodes: leaves are literals and
    names as they may be spelled under the meaning of the caret, operators have both
    operands, and functions have their argument. -/
inductive Tree.IsComplete (caret : Caret) : Tree → Prop
  | literal {f : Literal.Format} {text : String} : Literal.Spells f text.toList →
      (f = .power → caret = .power) → IsComplete caret (.leaf (.literal f) text)
  | name {text : String} : text.toList ≠ [] → (∀ c ∈ text.toList, c.isAlpha = true) →
      IsComplete caret (.leaf .name text)
  | binary {op : Operator} {x y : Tree} : (op = .xor → caret = .xor) → IsComplete caret x →
      IsComplete caret y → IsComplete caret (.binary op x y)
  | call {f : Function} {x : Tree} : IsComplete caret x → IsComplete caret (.call f x)

/-! ## Atoms -/

namespace Grammar

theorem ofToken?_literal {t : Token} {f : Literal.Format} {text : String}
    (hk : t.kind = .literal f) (ht : t.text = text) :
    Tree.ofToken? t = some (.leaf (.literal f) text) := by
  simp [Tree.ofToken?, hk, ht]

theorem ofToken?_name {t : Token} {text : String} (hk : t.kind = .name) (ht : t.text = text) :
    Tree.ofToken? t = some (.leaf .name text) := by
  simp [Tree.ofToken?, hk, ht]

/-- Two atoms with an operator between them are an expression, whatever its strength. -/
theorem Derives.binary {t : Token} {op : Operator} {m n : Nat} {ts us : List Token} {x y : Tree}
    (hx : Derives .atom m ts x) (ht : t.kind = .operator op) (hy : Derives .atom n us y) :
    Derives .expression (max m n) (ts ++ t :: us) (.binary op x y) := by
  cases hop : op.isTight with
  | true => exact .term (.tight (.atom hx) ht hop hy)
  | false => exact .loose (.term (.atom hx)) ht hop (.atom hy)

end Grammar

/-! ## Written forms -/

theorem Operator.toList_symbol (op : Operator) : op.symbol.toList = [op.char] := by
  cases op <;> rfl

theorem Tree.toList_render_binary (op : Operator) (x y : Tree) :
    (Tree.binary op x y).render.toList =
      '(' :: (x.render.toList ++ ' ' :: op.char :: ' ' :: (y.render.toList ++ [')'])) := by
  simp [Tree.binary, Tree.render, String.toList_append, Operator.toList_symbol]

theorem Tree.toList_render_call (f : Function) (x : Tree) :
    (Tree.call f x).render.toList = f.name.toList ++ '(' :: (x.render.toList ++ [')']) := by
  simp [Tree.call, Tree.render, Function.opener, String.toList_append]

theorem Function.isAlpha_of_mem_name (f : Function) : f.name.toList ≠ [] ∧
    ∀ c ∈ f.name.toList, c.isAlpha = true := by
  have hall : f.name.toList.all Char.isAlpha = true := by cases f <;> decide
  refine ⟨?_, List.all_eq_true.mp hall⟩
  cases f <;> decide

/-! ## Tokens of the written form -/

namespace Lexer

variable {l : Lexer} {caret : Caret} {rest : List Char}

theorem allowsSign_of_previous {l : Lexer} {k : Token.Kind} (h : l.previous = some k)
    (hk : (k.isOperator || k.opensLevel) = true) : l.allowsSign = true := by
  simp only [allowsSign, h, hk]

theorem isBlank_of_mem_space : ∀ c ∈ [' '], isBlank c = true :=
  List.forall_mem_singleton.mpr rfl

/-- A closing bracket is read without blanks before it. -/
theorem reads_closing (h : l.rest = ')' :: rest) :
    ∃ c l', l.Reads [c] l' ∧ c.kind = .closing ∧ l'.rest = rest := by
  obtain ⟨c, l', hreads, hc, -, hrest, -⟩ := reads_of_cuts (by simp : ∀ c ∈ [], isBlank c = true)
    (show l.rest = [] ++ ([')'] ++ rest) from h) Piece.cuts_closing
  exact ⟨c, l', hreads, hc, hrest⟩

/-- Where a sign may stand, and before a detached text, the written form of the tree is read
    as an atom with that tree. Its brackets are fewer than the tree is high. -/
def ReadsBack (caret : Caret) (x : Tree) : Prop :=
  ∀ (l : Lexer) (blanks rest : List Char), l.caret = caret → l.allowsSign = true →
    (∀ c ∈ blanks, isBlank c = true) → l.rest = blanks ++ (x.render.toList ++ rest) →
    Detached rest →
    ∃ n ts l', n < x.height ∧ Derives .atom n ts x ∧ l.Reads ts l' ∧ l'.rest = rest

theorem readsBack_literal {f : Literal.Format} {text : String} (hs : Literal.Spells f text.toList)
    (hf : f = .power → caret = .power) : ReadsBack caret (.leaf (.literal f) text) := by
  intro l blanks rest hcaret hsign hb hl hr
  have hcuts : Piece.Cuts l.caret l.allowsSign (.literal f) text.toList rest :=
    Piece.cuts_literal hs (by rw [hcaret]; exact hf) (fun _ => hsign) hr
  obtain ⟨t, l', hreads, hkind, htext, hrest, -⟩ := reads_of_cuts hb hl hcuts
  refine ⟨0, [t], l', by simp [Tree.leaf, Tree.height], .operand (ofToken?_literal hkind ?_),
    hreads, hrest⟩
  simpa [Token.Kind.keepsText, Tree.leaf, Tree.render] using htext

theorem readsBack_name {text : String} (hne : text.toList ≠ [])
    (ha : ∀ c ∈ text.toList, c.isAlpha = true) : ReadsBack caret (.leaf .name text) := by
  intro l blanks rest hcaret hsign hb hl hr
  obtain ⟨t, l', hreads, hkind, htext, hrest, -⟩ := reads_of_cuts hb hl (Piece.cuts_name hne ha hr)
  refine ⟨0, [t], l', by simp [Tree.leaf, Tree.height], .operand (ofToken?_name hkind ?_),
    hreads, hrest⟩
  simpa [Token.Kind.keepsText, Tree.leaf, Tree.render] using htext

theorem readsBack_binary {op : Operator} {x y : Tree} (hop : op = .xor → caret = .xor)
    (hx : ReadsBack caret x) (hy : ReadsBack caret y) : ReadsBack caret (.binary op x y) := by
  intro l blanks rest hcaret hsign hb hl hr
  rw [Tree.toList_render_binary] at hl
  -- the written form in its parts, from the last one to the first
  obtain ⟨close, hclose⟩ : ∃ cs, cs = ')' :: rest := ⟨_, rfl⟩
  obtain ⟨right, hright⟩ : ∃ cs, cs = ' ' :: (y.render.toList ++ close) := ⟨_, rfl⟩
  obtain ⟨symbol, hsymbol⟩ : ∃ cs, cs = ' ' :: op.char :: right := ⟨_, rfl⟩
  have hl : l.rest = blanks ++ (['('] ++ (x.render.toList ++ symbol)) := by
    simp [hl, hsymbol, hright, hclose]
  obtain ⟨o, l1, h1, ho, -, hr1, hp1⟩ := reads_of_cuts hb hl Piece.cuts_opening
  obtain ⟨m, ts, l2, hm, hdx, h2, hr2⟩ := hx l1 [] symbol (h1.2.trans hcaret)
    (allowsSign_of_previous hp1 rfl) (by simp) hr1 (hsymbol ▸ detached_cons (.inl rfl))
  have hc2 : l2.caret = caret := h2.2.trans (h1.2.trans hcaret)
  have hl2 : l2.rest = [' '] ++ ([op.char] ++ right) := by
    rw [hr2, hsymbol]
    rfl
  obtain ⟨t, l3, h3, ht, -, hr3, hp3⟩ := reads_of_cuts isBlank_of_mem_space hl2
    (Piece.cuts_operator (by rw [hc2]; exact hop) (hright ▸ detached_cons (.inl rfl)))
  have hl3 : l3.rest = [' '] ++ (y.render.toList ++ close) := by
    rw [hr3, hright]
    rfl
  obtain ⟨n, us, l4, hn, hdy, h4, hr4⟩ := hy l3 [' '] close (h3.2.trans hc2)
    (allowsSign_of_previous hp3 rfl) isBlank_of_mem_space hl3 (hclose ▸ detached_cons (.inr rfl))
  obtain ⟨c, l5, h5, hc, hr5⟩ := reads_closing (hr4.trans hclose)
  refine ⟨max m n + 1, o :: (ts ++ t :: us) ++ [c], l5, ?_, .group ho (hdx.binary ht hdy) hc, ?_,
    hr5⟩
  · simp only [Tree.binary, Tree.height]
    omega
  · have := (((h1.trans h2).trans h3).trans h4).trans h5
    simpa using this

theorem readsBack_call {f : Function} {x : Tree} (hx : ReadsBack caret x) :
    ReadsBack caret (.call f x) := by
  intro l blanks rest hcaret hsign hb hl hr
  rw [Tree.toList_render_call] at hl
  obtain ⟨close, hclose⟩ : ∃ cs, cs = ')' :: rest := ⟨_, rfl⟩
  have hl : l.rest = blanks ++ ((f.name.toList ++ ['(']) ++ (x.render.toList ++ close)) := by
    simp [hl, hclose]
  obtain ⟨hne, ha⟩ := f.isAlpha_of_mem_name
  obtain ⟨o, l1, h1, ho, -, hr1, hp1⟩ := reads_of_cuts hb hl (Piece.cuts_opener hne ha)
  have hcall : Token.Kind.ofOpener (String.ofList (f.name.toList ++ ['('])) = .call f := by
    cases f <;> rfl
  rw [hcall] at ho hp1
  obtain ⟨n, ts, l2, hn, hdx, h2, hr2⟩ := hx l1 [] close (h1.2.trans hcaret)
    (allowsSign_of_previous hp1 rfl) (by simp) hr1 (hclose ▸ detached_cons (.inr rfl))
  obtain ⟨c, l3, h3, hc, hr3⟩ := reads_closing (hr2.trans hclose)
  have hargument : Derives .expression n ts x := .term (.atom hdx)
  refine ⟨n + 1, o :: ts ++ [c], l3, ?_, .call ho hargument hc, ?_, hr3⟩
  · simp only [Tree.call, Tree.height]
    omega
  · have := (h1.trans h2).trans h3
    simpa using this

/-- A complete tree is read back from its written form. -/
theorem readsBack_of_isComplete {x : Tree} (h : x.IsComplete caret) : ReadsBack caret x := by
  induction h with
  | literal hs hf => exact readsBack_literal hs hf
  | name hne ha => exact readsBack_name hne ha
  | binary hop _ _ ihx ihy => exact readsBack_binary hop ihx ihy
  | call _ ih => exact readsBack_call ih

end Lexer

/-! ## The tree -/

/-- A complete tree within the depth limit is read back from its written form, without a
    report, under the same meaning of the caret. -/
theorem parse_render (r : Reading) {x : Tree} (h : x.IsComplete r.caret)
    (hx : x.height ≤ depthLimit) : r.parse x.render = ⟨x, []⟩ := by
  obtain ⟨n, ts, l', hn, hd, hreads, hrest⟩ := Lexer.readsBack_of_isComplete h
    (Lexer.ofString r.caret x.render) [] [] rfl rfl (by simp)
    (by simp [Lexer.ofString]) detached_nil
  have htokens : tokenize r.caret x.render = ts := by
    rw [tokenize, hreads.1, Lexer.tokens_of_rest_nil hrest, List.append_nil]
  have hexpression : Derives .expression n (Token.upToFinish ts) x := by
    rw [Token.upToFinish_eq hd.isFinish_eq_false]
    exact .term (.atom hd)
  rw [Reading.parse_eq, htokens]
  exact parse_of_derives hexpression (by omega) hx

/-- A sum with a signed literal and a call. -/
theorem parse_render_sum :
    Reading.default.parse (Tree.binary .add (.leaf (.literal .integer) "-1")
        (.call .sqrt (.leaf (.literal .power) "2^-3"))).render =
      ⟨.binary .add (.leaf (.literal .integer) "-1")
        (.call .sqrt (.leaf (.literal .power) "2^-3")), []⟩ := by
  have hone : Literal.Bare .integer ['1'] :=
    .integer (by simp) (List.forall_mem_singleton.mpr rfl)
  have htwo : Literal.Bare .integer ['2'] :=
    .integer (by simp) (List.forall_mem_singleton.mpr rfl)
  have hthree : ∀ c ∈ ['3'], c.isDigit = true := List.forall_mem_singleton.mpr rfl
  have hpower : Literal.Bare .power ['2', '^', '-', '3'] :=
    .power (.inl rfl) htwo (.inr rfl) hthree
  apply parse_render
  · refine .binary (by simp) (.literal ?_ (by simp)) (.call (.literal ?_ fun _ => rfl))
    · exact ⟨['-'], ['1'], .inr rfl, hone, rfl⟩
    · exact ⟨[], ['2', '^', '-', '3'], .inl rfl, hpower, rfl⟩
  · decide

end Reckoner
