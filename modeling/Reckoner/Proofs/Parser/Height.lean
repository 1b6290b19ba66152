import Reckoner.Proofs.Parser.Halting

/-!
# The height of parsed trees

The depth limit bounds every tree that the parser builds. As long as the parser goes on
no level is higher than the limit. Once it has halted the open levels are still put into
each other without being checked, and each of them adds at most three to the height: a
call, and two operators around it.

* `Sized.Covers`, `Level.Covers`: the height that counts is no less than that of the tree;
* `Level.height_addOperand_le`, `Level.height_addOperator_le`: how much an operand or an
  operator adds;
* `Parser.Bounded`: the invariant, which every step (`Parser.Bounded.step`) and the end of
  every level (`Parser.Bounded.leave`) keeps;
* `height_parse_le`: the bounds, with and without a report that the limit was exceeded.
-/

namespace Reckoner

/-! ## Heights that count -/

namespace Sized

variable {x y : Sized}

/-- The height that counts for a tree is no less than its own. A tree that is an operand
    has a height. -/
structure Covers (x : Sized) : Prop where
  pos : 0 < x.height
  tree_le : x.tree.height ≤ x.height

theorem covers_leaf (kind : Tree.Kind) (text : String) : (leaf kind text).Covers :=
  ⟨Nat.one_pos, Nat.le_refl 1⟩

theorem Covers.binary (hx : x.Covers) (hy : y.Covers) (op : Operator) :
    (binary op x y).Covers := by
  have hleft := hx.tree_le
  have hright := hy.tree_le
  constructor <;> simp only [Sized.binary, Tree.binary, Tree.height] <;> omega

theorem Covers.pending (hx : x.Covers) (op : Operator) : (pending op x).Covers := by
  have hleft := hx.tree_le
  constructor <;> simp only [Sized.pending, Tree.binary, Tree.height] <;> omega

end Sized

namespace Level

variable {l : Level} {x : Sized}

/-- The heights that count for the operands of a level are no less than those of their
    trees. -/
def Covers : Level → Prop
  | empty => True
  | single x => x.Covers
  | pending left _ => left.Covers
  | joined left _ right => left.Covers ∧ right.Covers
  | nested left _ inner _ => left.Covers ∧ inner.Covers

theorem Covers.whole (h : l.Covers) (hl : l.isEmpty = false) : l.whole.Covers := by
  cases l with
  | empty => cases hl
  | single x => exact h
  | pending left op => exact Sized.Covers.pending h op
  | joined left op right => exact h.1.binary h.2 op
  | nested left op inner innerOp => exact h.1.binary (h.2.pending innerOp) op

theorem Covers.tree_le (h : l.Covers) : l.tree.height ≤ l.height := by
  cases hl : l.isEmpty with
  | true =>
    cases l with
    | empty => exact Nat.le_refl 0
    | single | pending | joined | nested => cases hl
  | false => exact (h.whole hl).tree_le

theorem Covers.addOperand (h : l.Covers) (hx : x.Covers) : (l.addOperand x).Covers := by
  cases l with
  | empty => exact hx
  | single | joined => exact h
  | pending left op => exact ⟨h, hx⟩
  | nested left op inner innerOp => exact ⟨h.1, h.2.binary hx innerOp⟩

theorem Covers.addOperator (h : l.Covers) (op : Operator) : (l.addOperator op).Covers := by
  cases l with
  | empty | single | pending | nested => exact h
  | joined left top right =>
    simp only [Level.addOperator]
    split_ifs
    · exact h
    · exact h.1.binary h.2 top

/-! ## What operands and operators add -/

/-- Two operators at most stand above an operand. -/
theorem height_addOperand_le (l : Level) (x : Sized) :
    (l.addOperand x).height ≤ max l.height (x.height + 2) := by
  cases l with
  | empty | single | joined | pending | nested =>
    simp only [addOperand, height, whole, Sized.pending, Sized.binary]
    omega

/-- A leaf makes a level that has operands no higher: the operator before it has another
    operand already. -/
theorem height_addOperand_leaf_le (h : l.Covers) (kind : Tree.Kind) (text : String) :
    (l.addOperand (.leaf kind text)).height ≤ max l.height 1 := by
  cases l with
  | empty | single | joined =>
    simp only [addOperand, height, whole, Sized.leaf]
    omega
  | pending left op =>
    have hleft := Sized.Covers.pos h
    simp only [addOperand, height, whole, Sized.pending, Sized.binary, Sized.leaf]
    omega
  | nested left op inner innerOp =>
    have hinner := h.2.pos
    simp only [addOperand, height, whole, Sized.pending, Sized.binary, Sized.leaf]
    omega

theorem height_addOperator_le (l : Level) (op : Operator) :
    (l.addOperator op).height ≤ l.height + 1 := by
  cases l with
  | empty | pending | nested => exact Nat.le_succ _
  | single x =>
    simp only [addOperator, height, whole, Sized.pending]
    omega
  | joined left top right =>
    simp only [addOperator]
    split_ifs <;> simp only [height, whole, Sized.pending, Sized.binary] <;> omega

end Level

/-! ## The invariant -/

namespace Parser

variable {limit : Nat} {p : Parser} {t : Token} {x : Sized}

/-- The heights of a parser's levels. The enclosing levels were within the limit when the
    brackets inside were opened, and so is the innermost one unless the parser has halted.
    Every level that is still open may add three to its height. -/
structure Bounded (limit : Nat) (p : Parser) : Prop where
  depth_le : p.depth ≤ limit
  covers : p.level.Covers
  frames : ∀ f ∈ p.frames, f.outer.Covers ∧ f.outer.height ≤ limit
  running : p.halted = false → p.level.height ≤ limit
  height_le : p.level.height + 3 * p.depth ≤ 4 * limit + 1

namespace Bounded

theorem start (limit : Nat) : start.Bounded limit :=
  ⟨Nat.zero_le _, trivial, by simp [Parser.start], fun _ => Nat.zero_le _, Nat.zero_le _⟩

theorem report (hp : p.Bounded limit) (d : Diagnostic) : (p.report d).Bounded limit :=
  ⟨hp.depth_le, hp.covers, hp.frames, hp.running, hp.height_le⟩

theorem halt (hp : p.Bounded limit) (t : Token) : (p.halt limit t).Bounded limit :=
  ⟨hp.depth_le, hp.covers, hp.frames, by simp [Parser.halt], hp.height_le⟩

/-- A level that is too high may replace the innermost one, since it is checked. -/
theorem checkHeight (hp : p.Bounded limit) {l : Level} (hc : l.Covers)
    (hl : l.height + 3 * p.depth ≤ 4 * limit + 1) (t : Token) :
    ({ p with level := l }.checkHeight limit t).Bounded limit := by
  unfold Parser.checkHeight
  split_ifs with h
  · exact ⟨hp.depth_le, hc, hp.frames, by simp [Parser.halt], hl⟩
  · refine ⟨hp.depth_le, hc, hp.frames, fun hr => ?_, hl⟩
    simpa [show p.halted = false from hr] using h

theorem addOperand (hp : p.Bounded limit) (hx : x.Covers)
    (h : (p.level.addOperand x).height + 3 * p.depth ≤ 4 * limit + 1) (t : Token) :
    (p.addOperand limit t x).Bounded limit := by
  unfold Parser.addOperand
  split_ifs
  · exact hp.checkHeight (hp.covers.addOperand hx) h t
  · exact hp.report _

theorem height_addOperand_leaf_le (hp : p.Bounded limit) (hr : p.halted = false)
    (hlimit : 1 ≤ limit) (kind : Tree.Kind) (text : String) :
    (p.level.addOperand (.leaf kind text)).height ≤ limit := by
  have hle := Level.height_addOperand_leaf_le hp.covers kind text
  have hlevel := hp.running hr
  omega

theorem addLeaf (hp : p.Bounded limit) (hr : p.halted = false) (hlimit : 1 ≤ limit) (t : Token)
    (kind : Tree.Kind) (text : String) :
    (p.addOperand limit t (.leaf kind text)).Bounded limit := by
  have hle := hp.height_addOperand_leaf_le hr hlimit kind text
  have hdepth := hp.depth_le
  exact hp.addOperand (Sized.covers_leaf kind text) (by omega) t

theorem addOperator (hp : p.Bounded limit) (hr : p.halted = false) (t : Token) (op : Operator) :
    (p.addOperator limit t op).Bounded limit := by
  unfold Parser.addOperator
  split_ifs
  · exact hp.report _
  · have hle := p.level.height_addOperator_le op
    have hlevel := hp.running hr
    have hdepth := hp.depth_le
    exact hp.checkHeight (hp.covers.addOperator op) (by omega) t

/-- A placeholder is put in unchecked, but it is a leaf. -/
theorem addStray (hp : p.Bounded limit) (hr : p.halted = false) (hlimit : 1 ≤ limit) (t : Token)
    (kind : Diagnostic.Kind) (defect : Option Tree.Defect) :
    (p.addStray t kind defect).Bounded limit := by
  unfold Parser.addStray
  cases defect with
  | none => exact hp.report _
  | some d =>
    dsimp only
    split_ifs
    · have hle := hp.height_addOperand_leaf_le hr hlimit (.invalid d) t.text
      have hdepth := hp.depth_le
      have hbound : (p.level.addOperand (.leaf (.invalid d) t.text)).height + 3 * p.depth ≤
          4 * limit + 1 := by omega
      exact ⟨hp.depth_le, hp.covers.addOperand (Sized.covers_leaf _ _), hp.frames, fun _ => hle,
        hbound⟩
    · exact hp.report _

theorem enter (hp : p.Bounded limit) (hr : p.halted = false) (t : Token) :
    (p.enter limit t).Bounded limit := by
  unfold Parser.enter
  split_ifs with hd
  · exact hp.halt t
  · refine ⟨by simp only [depth, List.length_cons] at hd ⊢; omega, trivial, ?_,
      fun _ => Nat.zero_le _, ?_⟩
    · intro f hf
      rcases List.mem_cons.mp hf with rfl | hf
      · exact ⟨hp.covers, hp.running hr⟩
      · exact hp.frames f hf
    · simp only [depth, List.length_cons, Level.height, Level.whole] at hd ⊢
      omega

/-- An operand that is at most one higher than the level inside fits into the level around
    it. -/
theorem attach (hp : p.Bounded limit) {inner : Level} (hc : inner.Covers)
    (hinner : inner.height + 3 * (p.depth + 1) ≤ 4 * limit + 1)
    (houter : p.level.height ≤ limit) (opening : Token) :
    (p.attach limit opening inner).Bounded limit := by
  have hdepth := hp.depth_le
  have hfits (x : Sized) (hx : x.height ≤ inner.height + 1) :
      (p.level.addOperand x).height + 3 * p.depth ≤ 4 * limit + 1 := by
    have hle := p.level.height_addOperand_le x
    omega
  unfold Parser.attach
  split
  · rename_i f _
    refine hp.addOperand ⟨Nat.succ_pos _, ?_⟩ (hfits _ (Nat.le_refl _)) opening
    have hle := hc.tree_le
    simp only [Tree.call, Tree.height]
    omega
  · refine (hp.report _).addOperand ⟨Nat.succ_pos _, ?_⟩ (hfits _ (Nat.le_refl _)) opening
    simp [Tree.leaf, Tree.height]
  · split_ifs with he
    · exact hp
    · exact hp.addOperand (hc.whole (by simpa using he)) (hfits _ (Nat.le_succ _)) opening

theorem leave (hp : p.Bounded limit) {frame : Frame} {frames : List Frame}
    (hf : p.frames = frame :: frames) : (p.leave limit frame frames).Bounded limit := by
  obtain ⟨hcovers, houter⟩ := hp.frames frame (by simp [hf])
  have hdepth : p.depth = frames.length + 1 := by simp [depth, hf]
  have hdepth_le := hp.depth_le
  have hheight := hp.height_le
  have hq : ({ p with frames := frames, level := frame.outer } : Parser).Bounded limit := by
    refine ⟨?_, hcovers, fun f h => hp.frames f (by simp [hf, h]), fun _ => houter, ?_⟩
    · show frames.length ≤ limit
      omega
    · show frame.outer.height + 3 * frames.length ≤ 4 * limit + 1
      omega
  refine hq.attach hp.covers ?_ houter frame.opening
  show p.level.height + 3 * (frames.length + 1) ≤ 4 * limit + 1
  omega

theorem close (hp : p.Bounded limit) (t : Token) : (p.close limit t).Bounded limit := by
  unfold Parser.close
  split
  · exact hp.report _
  · rename_i frame frames hf
    dsimp only
    split_ifs
    · exact (hp.report _).leave hf
    · exact hp.leave hf

theorem step (hp : p.Bounded limit) (hlimit : 1 ≤ limit) (t : Token) :
    (p.step limit t).Bounded limit := by
  unfold Parser.step
  split_ifs with hr
  · exact hp
  · rw [Bool.not_eq_true] at hr
    split
    · exact hp.addLeaf hr hlimit ..
    · exact hp.addLeaf hr hlimit ..
    · exact hp.addOperator hr ..
    · exact hp.enter hr t
    · exact hp.enter hr t
    · exact hp.enter hr t
    · exact hp.close t
    · exact hp.addStray hr hlimit ..
    · exact hp.addStray hr hlimit ..
    · exact hp.addStray hr hlimit ..
    · exact hp

theorem endLevel (hp : p.Bounded limit) (opening : Option Token) (last : Nat) :
    (p.endLevel opening last).Bounded limit := by
  unfold Parser.endLevel
  split_ifs
  · exact hp
  · cases opening with
    | none => dsimp only; split_ifs <;> [exact hp.report _; exact hp]
    | some t =>
      dsimp only
      split_ifs
      · exact (hp.report _).report _
      · exact hp.report _

theorem ended (hlimit : 1 ≤ limit) (ts : List Token) : (Parser.ended limit ts).Bounded limit :=
  ended_induction (Bounded.start limit) (fun _ t hp => hp.step hlimit t)
    (fun _ opening last hp => hp.endLevel opening last) (fun _ _ _ hf hp => hp.leave hf) ts

end Bounded

end Parser

/-! ## The bounds -/

/-- Unless it is reported that the limit was exceeded, the tree is no higher than the
    limit. Otherwise it is at most four times as high, and one. -/
theorem height_parse_le (limit : Nat) (tokens : List Token) (hlimit : 1 ≤ limit) :
    ((∀ d ∈ (parse limit tokens).diagnostics, d.kind ≠ .tooDeep) →
      (parse limit tokens).tree.height ≤ limit) ∧
    (parse limit tokens).tree.height ≤ 4 * limit + 1 := by
  have hbounded := Parser.Bounded.ended hlimit (Token.upToFinish tokens)
  have htree := hbounded.covers.tree_le
  constructor
  · intro h
    have hrunning := (Parser.haltsAloud_ended limit _).halted_eq_false (.refl _) h
    exact Nat.le_trans htree (hbounded.running hrunning)
  · have hheight := hbounded.height_le
    exact Nat.le_trans htree (by omega)

/-- An expression that exceeds the limit inside a call, below two operators: its tree is
    higher than the limit. -/
theorem height_parse_le_three :
    let tokens : List Token := [.name, .operator .add, .name, .operator .mul, .call .sqrt, .name,
      .operator .add, .name, .operator .mul, .name, .operator .add].map fun kind =>
        ⟨kind, "", ⟨0, 0⟩⟩
    1 ≤ 3 ∧ (parse 3 tokens).tree.height = 7 ∧ (parse 3 tokens).tree.height ≤ 4 * 3 + 1 :=
  ⟨by decide, by decide, (height_parse_le 3 _ (by decide)).2⟩

end Reckoner
