import Reckoner.Proofs.Parser.Run
import Mathlib.Data.List.Induction
import Mathlib.Data.List.TakeWhile

/-!
# The language of the parser

The parser accepts the grammar's expressions, bracketed and stacked no deeper than the
limit, and builds their trees.

* `Parser.Tracks`: the tokens read so far, divided among the open levels. As long as
  nothing is reported every step keeps it (`Parser.tracks_step`), so that a parse without
  a report has derived its tokens (`derives_of_parse`);
* `Parser.ReadsAs`: tokens are read like one operand, wherever their category may begin.
  Every rule of the grammar keeps it (`Parser.readsAs_of_derives`), so that tokens with a
  derivation are parsed without a report (`parse_of_derives`);
* `parse_accepts_iff`: both together.
-/

namespace Reckoner

open Grammar

namespace Parser

variable {limit : Nat} {p : Parser} {t : Token} {ts us vs : List Token} {x : Sized}

/-! ## Soundness -/

/-- The tokens before the innermost level: each frame holds what its level had read
    before the bracket inside was opened. -/
def FramesRead (limit : Nat) : List Frame → List Token → Prop
  | [], us => us = []
  | f :: fs, us =>
    ∃ vs ws, us = vs ++ ws ++ [f.opening] ∧ f.opening.kind.opensLevel = true ∧ fs.length < limit ∧
      FramesRead limit fs vs ∧ f.outer.Reads (limit - fs.length) ws

/-- The parser goes on, and the tokens are those that its levels have read. -/
def Tracks (limit : Nat) (ts : List Token) (p : Parser) : Prop :=
  p.halted = false ∧
    ∃ us vs, ts = us ++ vs ∧ FramesRead limit p.frames us ∧ p.level.Reads (limit - p.depth) vs

theorem tracks_start (limit : Nat) : start.Tracks limit [] := ⟨rfl, [], [], rfl, rfl, rfl⟩

theorem tracks_addOperand (hp : p.Tracks limit ts) (hx : Denotes .atom (limit - p.depth) us x)
    (h : (p.addOperand limit t x).Silent) :
    (p.addOperand limit t x).Tracks limit (ts ++ us) ∧
      (p.addOperand limit t x).level.height ≤ limit := by
  obtain ⟨hrun, ws, vs, rfl, hframes, hlevel⟩ := hp
  obtain ⟨hl, hle⟩ := addOperand_silent hrun h
  rw [addOperand_eq hl hle]
  exact ⟨⟨hrun, ws, vs ++ us, by simp, hframes, hlevel.addOperand hl hx⟩, hle⟩

theorem tracks_addOperator {op : Operator} (hp : p.Tracks limit ts) (ht : t.kind = .operator op)
    (h : (p.addOperator limit t op).Silent) :
    (p.addOperator limit t op).Tracks limit (ts ++ [t]) ∧
      (p.addOperator limit t op).level.height ≤ limit := by
  obtain ⟨hrun, ws, vs, rfl, hframes, hlevel⟩ := hp
  obtain ⟨hl, hle⟩ := addOperator_silent hrun h
  rw [addOperator_eq hl hle]
  exact ⟨⟨hrun, ws, vs ++ [t], by simp, hframes, hlevel.addOperator hl ht⟩, hle⟩

theorem tracks_enter (hp : p.Tracks limit ts) (ht : t.kind.opensLevel = true)
    (h : (p.enter limit t).Silent) :
    (p.enter limit t).Tracks limit (ts ++ [t]) ∧ (p.enter limit t).level.height ≤ limit := by
  obtain ⟨hrun, ws, vs, rfl, hframes, hlevel⟩ := hp
  have hd := enter_silent h
  rw [enter_eq hd]
  exact ⟨⟨hrun, ws ++ vs ++ [t], [], by simp, ⟨ws, vs, rfl, ht, hd, hframes, hlevel⟩, rfl⟩,
    Nat.zero_le _⟩

/-- A bracket that closes without a report makes an atom of its level. -/
theorem tracks_close (hp : p.Tracks limit ts) (ht : t.kind = .closing)
    (h : (p.close limit t).Silent) :
    (p.close limit t).Tracks limit (ts ++ [t]) ∧ (p.close limit t).level.height ≤ limit := by
  obtain ⟨hrun, ws, vs, rfl, hframes, hlevel⟩ := hp
  obtain ⟨hl, f, fs, hf⟩ := close_silent h
  rw [close_eq hf hl] at h ⊢
  rw [hf] at hframes
  obtain ⟨us', ws', rfl, hopens, hlt, hfs, houter⟩ := hframes
  have hwhole := hlevel.whole hl
  have hdepth : limit - fs.length = limit - p.depth + 1 := by
    simp only [depth, hf, List.length_cons]
    omega
  -- the parser that goes on in the enclosing level
  have hq : Tracks limit (us' ++ ws') { p with frames := fs, level := f.outer } :=
    ⟨hrun, us', ws', rfl, hfs, houter⟩
  have hsplit : us' ++ ws' ++ [f.opening] ++ vs ++ [t] =
      us' ++ ws' ++ (f.opening :: vs ++ [t]) := by simp
  rw [hsplit]
  unfold attach at h ⊢
  split at h
  · rename_i g hg
    refine tracks_addOperand hq ?_ h
    show Denotes .atom (limit - fs.length) _ _
    rw [hdepth]
    exact hwhole.call hg ht
  · exact absurd ((extends_addOperand ..).silent h) (not_silent_report _ _)
  · rename_i hcall hunknown
    have hopening : f.opening.kind = .opening := by
      cases hk : f.opening.kind <;> simp_all [Token.Kind.opensLevel]
    simp only [Level.isEmpty_eq_false hl, Bool.false_eq_true, if_false] at h ⊢
    refine tracks_addOperand hq ?_ h
    show Denotes .atom (limit - fs.length) _ _
    rw [hdepth]
    exact hwhole.group hopening ht

/-- A step that reports nothing reads its token. -/
theorem tracks_step (hp : p.Tracks limit ts) (ht : t.isFinish = false)
    (h : (p.step limit t).Silent) :
    (p.step limit t).Tracks limit (ts ++ [t]) ∧ (p.step limit t).level.height ≤ limit := by
  unfold step at h ⊢
  rw [if_neg (by simp [hp.1])] at h ⊢
  split at h
  · rename_i format hk
    exact tracks_addOperand hp (.operand (by simp [Tree.ofToken?, hk])) h
  · rename_i hk
    exact tracks_addOperand hp (.operand (by simp [Tree.ofToken?, hk])) h
  · rename_i op hk
    exact tracks_addOperator hp hk h
  · rename_i f hk
    exact tracks_enter hp (by simp [hk, Token.Kind.opensLevel]) h
  · rename_i hk
    exact tracks_enter hp (by simp [hk, Token.Kind.opensLevel]) h
  · rename_i hk
    exact tracks_enter hp (by simp [hk, Token.Kind.opensLevel]) h
  · rename_i hk
    exact tracks_close hp hk h
  · exact absurd ((extends_addStray ..).silent h) (not_silent_report p _)
  · exact absurd ((extends_addStray ..).silent h) (not_silent_report p _)
  · exact absurd ((extends_addStray ..).silent h) (not_silent_report p _)
  · rename_i hk
    simp [Token.isFinish, hk] at ht

theorem extends_run (limit : Nat) (p : Parser) (ts : List Token) : p.Extends (p.run limit ts) :=
  (logs_run limit p ts).toExtends

/-- A run that reports nothing reads its tokens. -/
theorem tracks_run (hts : ∀ t ∈ ts, t.isFinish = false) (h : (start.run limit ts).Silent) :
    (start.run limit ts).Tracks limit ts ∧ (start.run limit ts).level.height ≤ limit := by
  induction ts using List.reverseRecOn with
  | nil => exact ⟨tracks_start limit, Nat.zero_le _⟩
  | append_singleton ts t ih =>
    rw [run_append] at h ⊢
    have hbefore := ih (fun u hu => hts u (by simp [hu])) ((extends_run limit _ [t]).silent h)
    exact tracks_step hbefore.1 (hts t (by simp)) h

/-- What is left at the end of the tokens is the outermost level, and it is complete
    unless it is empty. -/
theorem finish_silent {last : Nat} (hp : p.halted = false)
    (h : (p.finish limit last).diagnostics = []) :
    p.frames = [] ∧ (p.level = .empty ∨ p.level.expectsOperand = false) := by
  have hsilent : (unwind limit last p.frames p).Silent := h
  have hf := frames_eq_nil_of_silent hp hsilent
  refine ⟨hf, ?_⟩
  by_contra hopen
  rw [not_or] at hopen
  have hdue : (!p.level.isEmpty && p.level.expectsOperand) = true := by
    cases hl : p.level <;> simp_all [Level.isEmpty, Level.expectsOperand]
  rw [hf] at hsilent
  simp only [unwind, endLevel, hp, hdue, Bool.false_eq_true, if_false, if_true] at hsilent
  exact not_silent_report p _ hsilent

end Parser

theorem Token.isFinish_of_mem_upToFinish {tokens : List Token} {t : Token}
    (h : t ∈ Token.upToFinish tokens) : t.isFinish = false := by
  simpa using List.mem_takeWhile_imp h

/-- Tokens that are parsed without a report are none, or have a derivation within the
    limit. -/
theorem derives_of_parse {limit : Nat} {tokens : List Token}
    (h : (parse limit tokens).diagnostics = []) :
    Token.upToFinish tokens = [] ∨
      ∃ n x, Derives .expression n (Token.upToFinish tokens) x ∧ n ≤ limit ∧ x.height ≤ limit := by
  set ts := Token.upToFinish tokens with hts
  have hfinish : ∀ t ∈ ts, t.isFinish = false := fun t ht => Token.isFinish_of_mem_upToFinish ht
  have hrun : (Parser.start.run limit ts).Silent := (Parser.extends_unwind ..).silent h
  obtain ⟨⟨hgo, us, vs, hsplit, hframes, hlevel⟩, hle⟩ := Parser.tracks_run hfinish hrun
  obtain ⟨hf, hlast⟩ := Parser.finish_silent hgo h
  rw [hf] at hframes
  obtain rfl : us = [] := hframes
  rw [hsplit, List.nil_append]
  rcases hlast with hempty | hcomplete
  · left
    rw [hempty] at hlevel
    exact hlevel
  · right
    obtain ⟨hheight, n, hn, hd⟩ := hlevel.whole hcomplete
    refine ⟨n, _, hd, by omega, ?_⟩
    rw [← hheight]
    exact hle

/-! ## Completeness -/

namespace Parser

variable {limit : Nat} {p : Parser} {ts us : List Token}

/-- The levels at which the tokens of a category may be read: an atom where an operand is
    due, a term where no tight operator waits, an expression at the beginning. -/
def Begins : Category → Level → Prop
  | .atom, l => l.expectsOperand = true
  | .term, l => l.BeginsTerm
  | .expression, l => l = .empty

/-- The level `m` holds what the level `l` would hold after the operand `x`. After an atom
    or a term no operator can tell them apart, after an expression the tree is the same. -/
def Absorbs : Category → Level → Tree → Level → Prop
  | .atom, l, x, m | .term, l, x, m => m.Agrees (l.addOperand (.ofTree x))
  | .expression, _, x, m => m.expectsOperand = false ∧ m.whole = .ofTree x

/-- The tokens are read like the operand `x` wherever their category may begin, if `n` more
    brackets and the height of the level with `x` stay within the limit. -/
def ReadsAs (limit : Nat) (c : Category) (n : Nat) (ts : List Token) (x : Tree) : Prop :=
  ∀ p : Parser, p.halted = false → Begins c p.level → p.depth + n ≤ limit →
    (p.level.addOperand (.ofTree x)).height ≤ limit →
    ∃ m, p.run limit ts = { p with level := m } ∧ Absorbs c p.level x m

section Rules

variable {m n : Nat} {t o c : Token} {x y : Tree}

theorem readsAs_operand (hx : Tree.ofToken? t = some x) : ReadsAs limit .atom 0 [t] x := by
  intro p hp hl _ hle
  refine ⟨_, ?_, Level.Agrees.addOperand p.level _⟩
  rw [run_cons, run_nil, step_operand hp hx, addOperand_eq hl hle]

/-- A bracket around an expression attaches a level with the tree of that. -/
theorem run_bracket {p : Parser} (hp : p.halted = false) (hn : p.depth + (n + 1) ≤ limit)
    (ho : o.kind.opensLevel = true) (h : ReadsAs limit .expression n ts x) (hx : x.height ≤ limit)
    (hc : c.kind = .closing) :
    ∃ l : Level, l.expectsOperand = false ∧ l.whole = .ofTree x ∧
      p.run limit (o :: ts ++ [c]) = p.attach limit o l := by
  have hinner : depth { p with frames := ⟨o, p.level⟩ :: p.frames, level := .empty } + n ≤ limit := by
    simp only [depth, List.length_cons] at hn ⊢
    omega
  obtain ⟨l, hl, hcomplete, hwhole⟩ := h
    { p with frames := ⟨o, p.level⟩ :: p.frames, level := .empty } hp rfl hinner hx
  refine ⟨l, hcomplete, hwhole, ?_⟩
  rw [List.cons_append, run_cons, step_opening hp ho, enter_eq (by omega), run_append, hl, run_cons,
    run_nil, step_closing (by exact hp) hc, close_eq rfl hcomplete]

theorem readsAs_group (ho : o.kind = .opening) (h : ReadsAs limit .expression n ts x)
    (hc : c.kind = .closing) : ReadsAs limit .atom (n + 1) (o :: ts ++ [c]) x := by
  intro p hp hl hn hle
  have hheight : x.height ≤ limit := Nat.le_trans (Level.height_operand_le hl (.ofTree x)) hle
  obtain ⟨l, hcomplete, hwhole, hrun⟩ := run_bracket hp hn (by rw [ho]; rfl) h hheight hc
  refine ⟨_, ?_, Level.Agrees.addOperand p.level _⟩
  rw [hrun]
  simp only [attach, ho, Level.isEmpty_eq_false hcomplete, Bool.false_eq_true, if_false, hwhole]
  rw [addOperand_eq hl hle]

theorem readsAs_call {f : Function} (ho : o.kind = .call f) (h : ReadsAs limit .expression n ts x)
    (hc : c.kind = .closing) : ReadsAs limit .atom (n + 1) (o :: ts ++ [c]) (.call f x) := by
  intro p hp hl hn hle
  have hx : Sized.ofTree (.call f x) = ⟨.call f x, x.height + 1⟩ := by
    simp [Sized.ofTree, Tree.call, Tree.height, Nat.add_comm]
  have hheight : x.height + 1 ≤ limit := by
    have := Nat.le_trans (Level.height_operand_le hl _) hle
    rwa [hx] at this
  obtain ⟨l, -, hwhole, hrun⟩ := run_bracket hp hn (by rw [ho]; rfl) h (by omega) hc
  refine ⟨_, ?_, Level.Agrees.addOperand p.level _⟩
  rw [hrun]
  simp only [attach, ho, Level.tree, Level.height, hwhole, Sized.tree_ofTree,
    Sized.height_ofTree, ← hx]
  rw [addOperand_eq hl hle]

/-- An atom alone is a term. -/
theorem readsAs_atom (h : ReadsAs limit .atom n ts x) : ReadsAs limit .term n ts x := by
  intro p hp hl hn hle
  exact h p hp (Level.BeginsTerm.expectsOperand hl) hn hle

theorem readsAs_tight {op : Operator} (hx : ReadsAs limit .term m ts x) (ht : t.kind = .operator op)
    (hop : op.isTight = true) (hy : ReadsAs limit .atom n us y) :
    ReadsAs limit .term (max m n) (ts ++ t :: us) (.binary op x y) := by
  intro p hp hl hn hle
  -- the level after the first part, the operator and the second part
  have hagrees := Level.agrees_tight hl hop (.ofTree x) (.ofTree y)
  have hdue : ((p.level.addOperand (.ofTree x)).addOperator op).expectsOperand = true :=
    Level.expectsOperand_addOperator op (by simp)
  have hheight : (((p.level.addOperand (.ofTree x)).addOperator op).addOperand
      (.ofTree y)).height ≤ limit := by
    rw [Level.height, hagrees.whole, Sized.binary_ofTree]
    exact hle
  have hheight' := Nat.le_trans (Level.height_le_addOperand hdue _) hheight
  obtain ⟨k, hk, hkx⟩ := hx p hp hl (by omega)
    (Nat.le_trans (Level.height_le_addOperator _ op) hheight')
  obtain ⟨k', hk', hky⟩ := hy { p with level := k.addOperator op } hp
    (by rw [Begins, hkx.addOperator]; exact hdue) (by simp only [depth] at hn ⊢; omega)
    (by rw [hkx.addOperator]; exact hheight)
  refine ⟨k', ?_, ?_⟩
  · rw [run_append, hk, run_cons, step_operator (by exact hp) ht, addOperator_eq hkx.complete
      (by rw [hkx.addOperator]; exact hheight'), hk']
  · rw [hkx.addOperator] at hky
    exact hky.trans hagrees

/-- A term alone is an expression. -/
theorem readsAs_term (h : ReadsAs limit .term n ts x) : ReadsAs limit .expression n ts x := by
  intro p hp hl hn hle
  rw [Begins] at hl
  obtain ⟨m, hm, hagrees⟩ := h p hp (by rw [Begins, hl]; trivial) hn hle
  refine ⟨m, hm, hagrees.complete, ?_⟩
  rw [hagrees.whole, hl]
  rfl

theorem readsAs_loose {op : Operator} (hx : ReadsAs limit .expression m ts x)
    (ht : t.kind = .operator op) (hop : op.isTight = false) (hy : ReadsAs limit .term n us y) :
    ReadsAs limit .expression (max m n) (ts ++ t :: us) (.binary op x y) := by
  intro p hp hl hn hle
  rw [Begins] at hl
  have hxy : (Sized.ofTree (.binary op x y)).height ≤ limit := by rw [hl] at hle; exact hle
  have hheight : 1 + max x.height y.height ≤ limit := hxy
  obtain ⟨k, hk, hcomplete, hwhole⟩ := hx p hp hl (by omega)
    (by rw [hl]; show x.height ≤ limit; omega)
  have hpending : k.addOperator op = .pending (.ofTree x) op := by
    rw [Level.addOperator_loose hcomplete hop, hwhole]
  obtain ⟨k', hk', hky⟩ := hy { p with level := k.addOperator op } hp
    (by rw [Begins, hpending]; exact hop) (by simp only [depth] at hn ⊢; omega)
    (by rw [hpending]; exact hxy)
  refine ⟨k', ?_, hky.complete, ?_⟩
  · rw [run_append, hk, run_cons, step_operator (by exact hp) ht, addOperator_eq hcomplete
      (by rw [hpending]; show 1 + x.height ≤ limit; omega), hk']
  · rw [hky.whole, hpending]
    rfl

end Rules

/-- Every rule of the grammar keeps it, so that derived tokens are read like one operand. -/
theorem readsAs_of_derives {c : Category} {n : Nat} {x : Tree} (h : Derives c n ts x) :
    ReadsAs limit c n ts x := by
  induction h with
  | operand hx => exact readsAs_operand hx
  | group ho _ hc ih => exact readsAs_group ho ih hc
  | call ho _ hc ih => exact readsAs_call ho ih hc
  | atom _ ih => exact readsAs_atom ih
  | tight _ ht hop _ ihx ihy => exact readsAs_tight ihx ht hop ihy
  | term _ ih => exact readsAs_term ih
  | loose _ ht hop _ ihx ihy => exact readsAs_loose ihx ht hop ihy

end Parser

/-- Tokens that have a derivation within the limit are parsed without a report to the tree
    of that derivation. -/
theorem parse_of_derives {limit n : Nat} {tokens : List Token} {x : Tree}
    (h : Derives .expression n (Token.upToFinish tokens) x) (hn : n ≤ limit)
    (hx : x.height ≤ limit) : parse limit tokens = ⟨x, []⟩ := by
  obtain ⟨m, hm, hcomplete, hwhole⟩ := Parser.readsAs_of_derives h Parser.start rfl rfl
    (by rw [Parser.depth, Parser.start]; simpa using hn) hx
  rw [Parser.run] at hm
  simp only [parse, hm]
  simp [Parser.finish, Parser.unwind, Parser.endLevel, Parser.start, hcomplete, Level.tree, hwhole]

theorem parse_nil {limit : Nat} {tokens : List Token} (h : Token.upToFinish tokens = []) :
    parse limit tokens = ⟨.absent, []⟩ := by
  rw [parse, h]
  rfl

/-! ## The language -/

/-- The parser reports nothing exactly for the empty token list, which has no tree, and for
    the expressions of the grammar whose brackets and whose tree are no deeper than the
    limit. Then its tree is that of the derivation. -/
theorem parse_accepts_iff (limit : Nat) (tokens : List Token) :
    ((parse limit tokens).isOk = true ↔
      Token.upToFinish tokens = [] ∨
        ∃ n x, Derives .expression n (Token.upToFinish tokens) x ∧ n ≤ limit ∧ x.height ≤ limit) ∧
    (Token.upToFinish tokens = [] → (parse limit tokens).tree = .absent) ∧
    ∀ n x, Derives .expression n (Token.upToFinish tokens) x → n ≤ limit → x.height ≤ limit →
      (parse limit tokens).tree = x := by
  refine ⟨⟨fun h => ?_, ?_⟩, fun h => by rw [parse_nil h], fun n x h hn hx => by
    rw [parse_of_derives h hn hx]⟩
  · exact derives_of_parse (List.isEmpty_iff.mp h)
  · rintro (h | ⟨n, x, h, hn, hx⟩)
    · rw [parse_nil h]
      rfl
    · rw [parse_of_derives h hn hx]
      rfl

end Reckoner
