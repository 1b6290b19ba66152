import Reckoner.Proofs.Parser.Halting

/-!
# Holes in parsed trees

A tree is returned for every token list, and where operands were due it has holes. They are
on the right of operators and inside calls, nowhere else, and there are no more of them than
reports of something that was due. Leaves that stand for malformed operands have a report
of their own each.

* `Tree.IsPartial`, `Tree.holes`, `Tree.defects`: the shape of parsed trees, and what is
  counted in them;
* `Level.total`: what is counted in the operands of a level. The hole for an operand that is
  still due is not yet in one of them (`Level.holes_tree`);
* `Parser.Honest`: the invariant. It is kept by every step (`Parser.Honest.step`), and by
  ending a level and leaving it, since a level that ends where an operand is due has a
  report of that (`Parser.Honest.settled_endLevel`, `Parser.Settled.leave`);
* `holes_parse_le`: the shape of the tree, and the bounds on holes and on malformed leaves.
-/

namespace Reckoner

/-! ## What is counted -/

/-- The causes that something was due, or that the parser halted where it may have been. -/
def Diagnostic.Kind.tellsHole : Diagnostic.Kind → Bool
  | operandExpected | unclosed | tooDeep => true
  | _ => false

/-- The number of diagnostics with a cause of some kind. -/
def Diagnostic.count (P : Diagnostic.Kind → Bool) (ds : List Diagnostic) : Nat :=
  ds.countP fun d => P d.kind

namespace Tree

/-- The shape of parsed trees: operators have a left operand, functions have nothing on the
    right, and all other nodes are leaves. -/
def IsPartial : Tree → Prop
  | .absent => True
  | .node (.operator _) _ left right => left ≠ .absent ∧ left.IsPartial ∧ right.IsPartial
  | .node (.function _) _ argument right => argument.IsPartial ∧ right = .absent
  | .node (.literal _) _ left right | .node .name _ left right => left = .absent ∧ right = .absent
  | .node (.invalid defect) _ left right =>
    defect ≠ .operator ∧ left = .absent ∧ right = .absent
  | .node .error _ _ _ => False

/-- One if nothing is there. -/
def missing : Tree → Nat
  | .absent => 1
  | .node .. => 0

/-- The number of operators without a right operand and of functions without an argument. -/
def holes : Tree → Nat
  | .absent => 0
  | .node (.operator _) _ left right => left.holes + right.holes + right.missing
  | .node (.function _) _ argument right => argument.holes + right.holes + argument.missing
  | .node _ _ left right => left.holes + right.holes

/-- The number of nodes that are malformed in a way. -/
def defects (defect : Defect) : Tree → Nat
  | .absent => 0
  | .node kind _ left right =>
    left.defects defect + right.defects defect + if kind = .invalid defect then 1 else 0

/-- The cause of the report that a malformed operand has. No operand is a malformed
    operator. -/
def Defect.cause? : Defect → Option Diagnostic.Kind
  | number => some .strayInNumber
  | name => some .strayInName
  | function => some .unknownFunction
  | operator => none

/-- Whether a cause is the one of a malformed operand. -/
def Defect.tells (defect : Defect) (kind : Diagnostic.Kind) : Bool := defect.cause? = some kind

/-- What is counted of an operator with both operands is counted in the operands. -/
def IsAdditive (w : Tree → Nat) : Prop :=
  ∀ (op : Operator) (x y : Tree), y ≠ .absent → w (.binary op x y) = w x + w y

theorem missing_eq_zero {t : Tree} (h : t ≠ .absent) : t.missing = 0 := by
  cases t with
  | absent => exact absurd rfl h
  | node => rfl

theorem isAdditive_holes : IsAdditive holes := by
  intro op x y hy
  rw [binary, holes, missing_eq_zero hy, Nat.add_zero]

theorem isAdditive_defects (defect : Defect) : IsAdditive (defects defect) := by
  intro op x y _
  simp [binary, defects]

theorem isPartial_absent : IsPartial .absent := trivial

theorem holes_call (f : Function) (x : Tree) : (call f x).holes = x.holes + x.missing := rfl

theorem defects_call (defect : Defect) (f : Function) (x : Tree) :
    (call f x).defects defect = x.defects defect := by
  simp [call, defects]

/-- A part of a partial tree: an operand or an argument that is there. -/
structure IsPart (t : Tree) : Prop where
  ne_absent : t ≠ .absent
  isPartial : t.IsPartial

theorem IsPart.binary {x y : Tree} (hx : x.IsPart) (hy : y.IsPartial) (op : Operator) :
    (Tree.binary op x y).IsPart :=
  ⟨Tree.noConfusion, hx.ne_absent, hx.isPartial, hy⟩

theorem IsPart.call {x : Tree} (hx : x.IsPartial) (f : Function) : (Tree.call f x).IsPart :=
  ⟨Tree.noConfusion, hx, rfl⟩

end Tree

/-! ## Levels -/

namespace Level

open Reckoner.Tree

variable {l : Level} {x : Sized} {w : Tree → Nat}

/-- All operands are there. -/
def IsSound : Level → Prop
  | empty => True
  | single x => x.tree.IsPart
  | pending left _ => left.tree.IsPart
  | joined left _ right => left.tree.IsPart ∧ right.tree.IsPart
  | nested left _ inner _ => left.tree.IsPart ∧ inner.tree.IsPart

/-- What is counted in the operands. -/
def total (w : Tree → Nat) : Level → Nat
  | empty => 0
  | single x => w x.tree
  | pending left _ => w left.tree
  | joined left _ right => w left.tree + w right.tree
  | nested left _ inner _ => w left.tree + w inner.tree

/-- One if an operand is due. -/
def due (l : Level) : Nat := if l.expectsOperand then 1 else 0

theorem due_le_one (l : Level) : l.due ≤ 1 := by
  unfold due
  split_ifs <;> decide

theorem due_eq_zero (h : l.expectsOperand = false) : l.due = 0 := by simp [due, h]

theorem IsSound.addOperand (h : l.IsSound) (hx : x.tree.IsPart) : (l.addOperand x).IsSound := by
  cases l with
  | empty => exact hx
  | single | joined => exact h
  | pending left op => exact ⟨h, hx⟩
  | nested left op inner innerOp => exact ⟨h.1, h.2.binary hx.isPartial innerOp⟩

theorem IsSound.addOperator (h : l.IsSound) (op : Operator) : (l.addOperator op).IsSound := by
  cases l with
  | empty | single | pending | nested => exact h
  | joined left top right =>
    simp only [Level.addOperator]
    split_ifs
    · exact h
    · exact h.1.binary h.2.isPartial top

theorem total_addOperand (hw : IsAdditive w) (hl : l.expectsOperand = true) (hx : x.tree.IsPart) :
    (l.addOperand x).total w = l.total w + w x.tree := by
  cases l with
  | single | joined => cases hl
  | empty => exact (Nat.zero_add _).symm
  | pending left op => rfl
  | nested left op inner innerOp =>
    simp only [Level.addOperand, total, Sized.binary, hw _ _ _ hx.ne_absent, Nat.add_assoc]

theorem total_addOperator (hw : IsAdditive w) (h : l.IsSound) (op : Operator) :
    (l.addOperator op).total w = l.total w := by
  cases l with
  | empty | single | pending | nested => rfl
  | joined left top right =>
    simp only [Level.addOperator]
    split_ifs
    · rfl
    · exact hw top left.tree right.tree h.2.ne_absent

theorem IsSound.isPart_tree (h : l.IsSound) (hl : l.isEmpty = false) : l.tree.IsPart := by
  cases l with
  | empty => cases hl
  | single x => exact h
  | pending left op => exact IsPart.binary h isPartial_absent op
  | joined left op right => exact h.1.binary h.2.isPartial op
  | nested left op inner innerOp =>
    have hinner : (Tree.binary innerOp inner.tree .absent).IsPart :=
      h.2.binary isPartial_absent innerOp
    exact h.1.binary hinner.isPartial op

theorem IsSound.isPartial_tree (h : l.IsSound) : l.tree.IsPartial := by
  cases hl : l.isEmpty with
  | true =>
    cases l with
    | empty => trivial
    | single | pending | joined | nested => cases hl
  | false => exact (h.isPart_tree hl).isPartial

/-- The operand that is due is a hole in the tree of a level, or all of it. -/
theorem holes_tree (h : l.IsSound) : l.tree.holes + l.tree.missing = l.total holes + l.due := by
  cases l with
  | empty => rfl
  | single x => rw [due_eq_zero rfl]; exact congrArg _ (missing_eq_zero h.ne_absent)
  | pending left op => simp [tree, whole, Sized.pending, Tree.binary, holes, missing, total, due,
      expectsOperand]
  | joined left op right =>
    rw [due_eq_zero rfl]
    exact isAdditive_holes op left.tree right.tree h.2.ne_absent
  | nested left op inner innerOp =>
    simp [tree, whole, Sized.pending, Sized.binary, Tree.binary, holes, missing, total, due,
      expectsOperand]
    omega

theorem defects_tree (l : Level) (defect : Defect) :
    l.tree.defects defect = l.total (defects defect) := by
  cases l <;> simp [tree, whole, Sized.pending, Sized.binary, Tree.binary, defects, total]

end Level

/-! ## The invariant -/

namespace Parser

open Reckoner.Tree

variable {limit : Nat} {p : Parser} {t : Token} {x : Sized} {w : Tree → Nat} {d : Diagnostic}
  {P : Diagnostic.Kind → Bool}

/-- What is counted in all levels. -/
def total (w : Tree → Nat) (p : Parser) : Nat :=
  p.level.total w + p.frames.foldr (fun f n => f.outer.total w + n) 0

/-- The number of diagnostics so far with a cause of some kind. -/
def count (P : Diagnostic.Kind → Bool) (p : Parser) : Nat :=
  Diagnostic.count P p.diagnostics.toList

theorem count_report (P : Diagnostic.Kind → Bool) (p : Parser) (d : Diagnostic) :
    (p.report d).count P = p.count P + if P d.kind then 1 else 0 := by
  simp [count, Diagnostic.count, report, List.countP_append, List.countP_singleton]

/-- The levels of a parser hold what partial trees are made of, and every hole in them and
    every malformed leaf has been reported. -/
structure Reported (p : Parser) : Prop where
  level : p.level.IsSound
  frames : ∀ f ∈ p.frames, f.outer.IsSound
  holes : p.total Tree.holes ≤ p.count (·.tellsHole)
  defects : ∀ defect : Defect, p.total (Tree.defects defect) ≤ p.count defect.tells

/-- The innermost level may end here: if an operand is due, that has been reported too. -/
structure Settled (p : Parser) : Prop extends Reported p where
  due : p.total Tree.holes + p.level.due ≤ p.count (·.tellsHole)

/-- The invariant. Once the parser has halted its levels end without a word, so that the
    innermost one must be settled. -/
structure Honest (p : Parser) : Prop extends Reported p where
  settled : p.halted = true → p.Settled

namespace Reported

theorem report (hp : p.Reported) (d : Diagnostic) : (p.report d).Reported := by
  refine ⟨hp.level, hp.frames, ?_, fun defect => ?_⟩
  · rw [count_report]
    exact Nat.le_trans hp.holes (Nat.le_add_right ..)
  · rw [count_report]
    exact Nat.le_trans (hp.defects defect) (Nat.le_add_right ..)

/-- A report that something was due settles the innermost level. -/
theorem settled_report (hp : p.Reported) (hd : d.kind.tellsHole = true) :
    (p.report d).Settled := by
  refine ⟨hp.report d, ?_⟩
  have hholes := hp.holes
  have hdue := p.level.due_le_one
  rw [count_report, if_pos hd]
  show p.total Tree.holes + p.level.due ≤ _
  omega

/-- A level in which no operand is due is settled. -/
theorem settled (hp : p.Reported) (h : p.level.expectsOperand = false) : p.Settled := by
  refine ⟨hp, ?_⟩
  rw [Level.due_eq_zero h]
  exact hp.holes

theorem honest (hp : p.Reported) (h : p.level.expectsOperand = false) : p.Honest :=
  ⟨hp, fun _ => hp.settled h⟩

theorem honest_of_running (hp : p.Reported) (hr : p.halted = false) : p.Honest :=
  ⟨hp, fun h => absurd h (by simp [hr])⟩

theorem halt (hp : p.Reported) (limit : Nat) (t : Token) : (p.halt limit t).Honest := by
  have h := hp.settled_report (d := .exceeds limit t) rfl
  have hreported : (p.halt limit t).Reported := ⟨h.level, h.frames, h.holes, h.defects⟩
  exact ⟨hreported, fun _ => ⟨hreported, h.due⟩⟩

end Reported

theorem Honest.checkHeight (hp : p.Honest) (limit : Nat) (t : Token) :
    (p.checkHeight limit t).Honest := by
  unfold Parser.checkHeight
  split_ifs
  · exact hp.toReported.halt limit t
  · exact hp

/-- An operand may join the level once its holes and malformed leaves have been reported. -/
structure Admits (p : Parser) (x : Tree) : Prop extends Reported p where
  part : x.IsPart
  holes_add : p.total Tree.holes + x.holes ≤ p.count (·.tellsHole)
  defects_add : ∀ defect : Defect,
    p.total (Tree.defects defect) + x.defects defect ≤ p.count defect.tells

namespace Admits

theorem addOperand_level (h : p.Admits x.tree) (hl : p.level.expectsOperand = true) :
    Honest { p with level := p.level.addOperand x } := by
  have htotal {w : Tree → Nat} (hw : IsAdditive w) :
      { p with level := p.level.addOperand x }.total w = p.total w + w x.tree := by
    simp only [total, Level.total_addOperand hw hl h.part]
    omega
  refine Reported.honest ⟨h.level.addOperand h.part, h.frames, ?_, fun defect => ?_⟩ (by simp)
  · rw [htotal isAdditive_holes]
    exact h.holes_add
  · rw [htotal (isAdditive_defects defect)]
    exact h.defects_add defect

/-- The operand joins the level, or is left out with a report. -/
theorem addOperand (h : p.Admits x.tree) (limit : Nat) (t : Token) :
    (p.addOperand limit t x).Honest := by
  unfold Parser.addOperand
  split_ifs with hl
  · exact (h.addOperand_level hl).checkHeight limit t
  · exact (h.report _).honest (show p.level.expectsOperand = false by simpa using hl)

end Admits

namespace Reported

theorem admits_literal (hp : p.Reported) (format : Literal.Format) (text : String) :
    p.Admits (leaf (.literal format) text) :=
  ⟨hp, ⟨Tree.noConfusion, rfl, rfl⟩, hp.holes, fun defect => by
    simpa [leaf, Tree.defects] using hp.defects defect⟩

theorem admits_name (hp : p.Reported) (text : String) : p.Admits (leaf .name text) :=
  ⟨hp, ⟨Tree.noConfusion, rfl, rfl⟩, hp.holes, fun defect => by
    simpa [leaf, Tree.defects] using hp.defects defect⟩

/-- A malformed leaf may join after a report of its cause. -/
theorem admits_invalid (hp : p.Reported) {defect : Defect} (hd : defect.cause? = some d.kind)
    (text : String) : (p.report d).Admits (leaf (.invalid defect) text) := by
  have hdefect : defect ≠ .operator := by
    rintro rfl
    cases hd
  refine ⟨hp.report d, ⟨Tree.noConfusion, hdefect, rfl, rfl⟩, (hp.report d).holes, fun other => ?_⟩
  have hdefects := hp.defects other
  rw [count_report]
  show p.total (Tree.defects other) + _ ≤ _
  by_cases hother : defect = other
  · subst hother
    simpa [leaf, Tree.defects, Defect.tells, hd] using hdefects
  · simp only [leaf, Tree.defects, Tree.Kind.invalid.injEq, hother, if_false]
    omega

theorem addOperator (hp : p.Reported) (hr : p.halted = false) (limit : Nat) (t : Token)
    (op : Operator) : (p.addOperator limit t op).Honest := by
  unfold Parser.addOperator
  split_ifs
  · exact (hp.report _).honest_of_running hr
  · have htotal {w : Tree → Nat} (hw : IsAdditive w) :
        { p with level := p.level.addOperator op }.total w = p.total w := by
      simp only [total, Level.total_addOperator hw hp.level]
    have hreported : Reported { p with level := p.level.addOperator op } := by
      refine ⟨hp.level.addOperator op, hp.frames, ?_, fun defect => ?_⟩
      · rw [htotal isAdditive_holes]
        exact hp.holes
      · rw [htotal (isAdditive_defects defect)]
        exact hp.defects defect
    exact (hreported.honest_of_running hr).checkHeight limit t

theorem addStray (hp : p.Reported) (hr : p.halted = false) {kind : Diagnostic.Kind}
    {defect : Option Defect} (hd : ∀ d ∈ defect, d.cause? = some kind) (t : Token) :
    (p.addStray t kind defect).Honest := by
  have hplain : (p.report (.atToken kind t)).Honest := (hp.report _).honest_of_running hr
  unfold Parser.addStray
  cases defect with
  | none => exact hplain
  | some defect =>
    dsimp only
    split_ifs with hl
    · exact Admits.addOperand_level (x := .leaf (.invalid defect) t.text)
        (hp.admits_invalid (hd defect rfl) t.text) hl
    · exact hplain

theorem enter (hp : p.Reported) (hr : p.halted = false) (limit : Nat) (t : Token) :
    (p.enter limit t).Honest := by
  unfold Parser.enter
  split_ifs
  · exact hp.halt limit t
  · have htotal (w : Tree → Nat) :
        { p with frames := ⟨t, p.level⟩ :: p.frames, level := .empty }.total w = p.total w := by
      simp [total, Level.total]
    refine honest_of_running ⟨trivial, List.forall_mem_cons.mpr ⟨hp.level, hp.frames⟩, ?_,
      fun defect => ?_⟩ hr
    · rw [htotal]
      exact hp.holes
    · rw [htotal]
      exact hp.defects defect

end Reported

/-- The level inside a bracket is an operand of the enclosing one, if it was settled. -/
theorem Reported.attach {inner : Level} (hp : p.Reported) (hinner : inner.IsSound)
    (hholes : p.total Tree.holes + (inner.total Tree.holes + inner.due) ≤ p.count (·.tellsHole))
    (hdefects : ∀ defect : Defect, p.total (Tree.defects defect) +
      inner.total (Tree.defects defect) ≤ p.count defect.tells) (limit : Nat) (opening : Token) :
    (p.attach limit opening inner).Honest := by
  simp only [← Level.defects_tree] at hdefects
  rw [← Level.holes_tree hinner] at hholes
  unfold Parser.attach
  split
  · rename_i f _
    have hcall : p.Admits (.call f inner.tree) := by
      refine ⟨hp, .call hinner.isPartial_tree f, ?_, fun defect => ?_⟩
      · rw [holes_call]
        exact hholes
      · rw [defects_call]
        exact hdefects defect
    exact Admits.addOperand hcall ..
  · exact Admits.addOperand (hp.admits_invalid rfl _) ..
  · split_ifs with he
    · -- the hole stays in the enclosing level, whose turn is next
      refine ⟨hp, fun _ => ⟨hp, ?_⟩⟩
      have hdue := p.level.due_le_one
      have hempty : inner.tree.missing = 1 := by
        cases inner with
        | empty => rfl
        | single | pending | joined | nested => cases he
      omega
    · rw [Bool.not_eq_true] at he
      have hgroup : p.Admits inner.tree :=
        ⟨hp, hinner.isPart_tree he, by omega, hdefects⟩
      exact Admits.addOperand hgroup ..

/-- A settled level may be left. -/
theorem Settled.leave (hp : p.Settled) {frame : Frame} {frames : List Frame}
    (hf : p.frames = frame :: frames) (limit : Nat) : (p.leave limit frame frames).Honest := by
  obtain ⟨q, hq⟩ : ∃ q : Parser, q = { p with frames := frames, level := frame.outer } := ⟨_, rfl⟩
  have htotal (w : Tree → Nat) : q.total w + p.level.total w = p.total w := by
    simp only [total, hq, hf, List.foldr_cons]
    omega
  have hle (w : Tree → Nat) : q.total w ≤ p.total w := htotal w ▸ Nat.le_add_right ..
  have hcount (P : Diagnostic.Kind → Bool) : q.count P = p.count P := by rw [hq]; rfl
  have hdue := hp.due
  have hframes := hp.frames
  rw [hf, List.forall_mem_cons] at hframes
  have hreported : q.Reported := by
    refine ⟨by rw [hq]; exact hframes.1, by rw [hq]; exact hframes.2, ?_, fun defect => ?_⟩
    · rw [hcount]
      exact Nat.le_trans (hle _) hp.holes
    · rw [hcount]
      exact Nat.le_trans (hle _) (hp.defects defect)
  rw [Parser.leave, ← hq]
  refine hreported.attach hp.level ?_ (fun defect => ?_) limit frame.opening
  · rw [hcount, ← Nat.add_assoc, htotal]
    exact hdue
  · rw [hcount, htotal]
    exact hp.defects defect

theorem Settled.holes_tree_le (hp : p.Settled) :
    p.level.tree.holes ≤ p.count (·.tellsHole) := by
  have hlevel := Level.holes_tree hp.level
  have hdue := hp.due
  simp only [total] at hdue
  omega

namespace Honest

theorem start : start.Honest :=
  Reported.honest_of_running ⟨trivial, by simp [Parser.start], Nat.le_refl 0,
    fun _ => Nat.le_refl 0⟩ rfl

theorem close (hp : p.Honest) (hr : p.halted = false) (limit : Nat) (t : Token) :
    (p.close limit t).Honest := by
  unfold Parser.close
  split
  · exact (hp.report _).honest_of_running hr
  · rename_i frame frames hf
    dsimp only
    split_ifs with hl
    · exact (hp.settled_report rfl).leave hf limit
    · exact (hp.toReported.settled (by simpa using hl)).leave hf limit

theorem step (hp : p.Honest) (limit : Nat) (t : Token) : (p.step limit t).Honest := by
  unfold Parser.step
  split_ifs with hr
  · exact hp
  · rw [Bool.not_eq_true] at hr
    split
    · exact (hp.admits_literal ..).addOperand limit t
    · exact (hp.admits_name ..).addOperand limit t
    · exact hp.addOperator hr ..
    · exact hp.enter hr ..
    · exact hp.enter hr ..
    · exact hp.enter hr ..
    · exact hp.close hr ..
    · exact hp.addStray hr (by simp) t
    · exact hp.addStray hr (by simp [Defect.cause?]) t
    · exact hp.addStray hr (by simp [Defect.cause?]) t
    · exact hp

/-- Where the tokens end inside a bracket, the report of that settles its level. -/
theorem settled_endLevel (hp : p.Honest) (opening : Token) (last : Nat) :
    (p.endLevel (some opening) last).Settled := by
  have hmissing := hp.settled_report (d := .missingClosing opening) rfl
  unfold Parser.endLevel
  split_ifs with hr
  · exact hp.settled hr
  · dsimp only
    split_ifs
    · exact hmissing.settled_report rfl
    · exact hmissing

theorem reported_endLevel (hp : p.Honest) (last : Nat) : (p.endLevel none last).Reported := by
  unfold Parser.endLevel
  split_ifs
  · exact hp.toReported
  · dsimp only
    split_ifs
    · exact hp.report _
    · exact hp.toReported

/-- The outermost level ends without a report only if it is empty or complete. -/
theorem holes_endLevel_le (hp : p.Honest) (last : Nat) :
    (p.endLevel none last).level.tree.holes ≤ (p.endLevel none last).count (·.tellsHole) := by
  unfold Parser.endLevel
  split_ifs with hr
  · exact (hp.settled hr).holes_tree_le
  · dsimp only
    split_ifs with hdue
    · exact (hp.settled_report rfl).holes_tree_le
    · cases hl : p.level with
      | empty => exact Nat.zero_le _
      | pending | nested => simp [hl, Level.isEmpty, Level.expectsOperand] at hdue
      | single | joined =>
        rw [← hl]
        exact (hp.toReported.settled (by rw [hl]; rfl)).holes_tree_le

end Honest

end Parser

/-! ## The tree of a parse -/

/-- Whatever the tokens are, the tree has the shape that it should have up to its holes.
    There are no more holes than reports that something was due or that the parser halted,
    and no more leaves that are malformed in a way than reports of that. -/
theorem holes_parse_le (limit : Nat) (tokens : List Token) :
    (parse limit tokens).tree.IsPartial ∧
    (parse limit tokens).tree.holes ≤
      Diagnostic.count (·.tellsHole) (parse limit tokens).diagnostics ∧
    ∀ defect : Tree.Defect, (parse limit tokens).tree.defects defect ≤
      Diagnostic.count defect.tells (parse limit tokens).diagnostics := by
  have hends : ∀ (p : Parser) (frame : Parser.Frame) (frames : List Parser.Frame) (last : Nat),
      p.frames = frame :: frames → p.Honest →
        ((p.endLevel (some frame.opening) last).leave limit frame frames).Honest :=
    fun p frame frames last hf hp => (hp.settled_endLevel frame.opening last).leave
      (by rw [Parser.frames_endLevel, hf]) limit
  obtain ⟨p, hp, -, hended⟩ := Parser.exists_ended Parser.Honest.start
    (fun _ t hp => hp.step limit t) hends (Token.upToFinish tokens)
  obtain ⟨last, hlast⟩ : ∃ last, last = Token.lastStop (Token.upToFinish tokens) := ⟨_, rfl⟩
  have hparse : parse limit tokens = ⟨(p.endLevel none last).level.tree,
      (p.endLevel none last).diagnostics.toList⟩ := by
    rw [hlast, ← hended]
    rfl
  have hreported := hp.reported_endLevel last
  rw [hparse]
  refine ⟨hreported.level.isPartial_tree, hp.holes_endLevel_le last, fun defect => ?_⟩
  rw [Level.defects_tree]
  exact Nat.le_trans (Nat.le_add_right ..) (hreported.defects defect)

/-- The bound is met by `1 + sqrt(`, where an argument is due and a bracket is left open. -/
example :
    let p := parse 9 [⟨.literal .integer, "1", ⟨0, 1⟩⟩, ⟨.operator .add, "", ⟨2, 3⟩⟩,
      ⟨.call .sqrt, "sqrt(", ⟨4, 9⟩⟩]
    p.tree.holes = 1 ∧ Diagnostic.count (·.tellsHole) p.diagnostics = 1 := by
  decide

end Reckoner
