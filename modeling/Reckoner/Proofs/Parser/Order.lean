import Reckoner.Proofs.Parser.Holes
import Mathlib.Data.List.Basic
import Mathlib.Data.List.Induction

/-!
# The order of tokens in parsed trees

Read in order, a parsed tree is a part of its tokens: the parser leaves tokens out, but it
adds none and changes no places. And it leaves no tree out: unless the limit is exceeded,
there is a tree as soon as there is a token that stands for an operand.

* `Tree.inOrder`, `Token.node?`: the nodes of a tree in order, and the node of a token;
* `Parser.nodes`: the nodes of all levels that are open. A step adds the node of its token at
  most (`Parser.nodes_step`), and leaving a level adds none (`Parser.nodes_leave`);
* `Parser.Holds`: something was read that becomes part of the tree. Nothing takes that back
  (`Parser.Holds.step`, `Parser.Holds.leave`);
* `parse_inOrder`: both for the tree of a parse.
-/

namespace Reckoner

open scoped List

/-! ## Nodes in order -/

/-- A node without its subtrees. -/
structure Tree.Node where
  kind : Tree.Kind
  text : String
deriving DecidableEq, Repr

/-- The nodes in order: an operator between its operands, and a function before its
    argument. -/
def Tree.inOrder : Tree → List Tree.Node
  | .absent => []
  | .node (.function f) text argument right =>
    ⟨.function f, text⟩ :: (argument.inOrder ++ right.inOrder)
  | .node kind text left right => left.inOrder ++ ⟨kind, text⟩ :: right.inOrder

namespace Token

/-- The node that a token stands for in a tree. A malformed number or name and an unknown
    call stand for an operand. -/
def node? (t : Token) : Option Tree.Node :=
  match t.kind with
  | .literal format => some ⟨.literal format, t.text⟩
  | .name => some ⟨.name, t.text⟩
  | .operator op => some ⟨.operator op, op.symbol⟩
  | .call f => some ⟨.function f, f.name⟩
  | .unknownCall => some ⟨.invalid .function, Diagnostic.calledName t.text⟩
  | .strayInNumber => some ⟨.invalid .number, t.text⟩
  | .strayInName => some ⟨.invalid .name, t.text⟩
  | .opening | .closing | .strayCharacter | .finish => none

/-- Whether tokens of a kind stand for an operand, alone or with an argument. -/
def Kind.isOperandLike : Kind → Bool
  | literal _ | name | call _ | unknownCall | strayInNumber | strayInName => true
  | operator _ | opening | closing | strayCharacter | finish => false

/-- Every node but an operator comes from such a token. -/
theorem isOperandLike_of_node? {t : Token} {n : Tree.Node} (h : t.node? = some n)
    (hn : ∀ op, n.kind ≠ .operator op) : t.kind.isOperandLike = true := by
  cases hk : t.kind with
  | literal | name | call | unknownCall | strayInNumber | strayInName => rfl
  | operator op =>
    simp only [node?, hk, Option.some.injEq] at h
    exact absurd (congrArg Tree.Node.kind h).symm (hn op)
  | opening | closing | strayCharacter | finish => simp [node?, hk] at h

/-- A part of the nodes of tokens is made of the nodes of a part of the tokens. -/
theorem exists_sublist_of_nodes {ts : List Token} {ns : List Tree.Node}
    (h : ns <+ ts.filterMap node?) :
    ∃ us, us <+ ts ∧ List.Forall₂ (fun t n => t.node? = some n) us ns := by
  induction ts generalizing ns with
  | nil =>
    obtain rfl := List.sublist_nil.mp h
    exact ⟨[], .slnil, .nil⟩
  | cons t ts ih =>
    have hskip (h : ns <+ ts.filterMap node?) :
        ∃ us, us <+ t :: ts ∧ List.Forall₂ (fun t n => t.node? = some n) us ns := by
      obtain ⟨us, hus, hall⟩ := ih h
      exact ⟨us, hus.cons t, hall⟩
    cases ht : t.node? with
    | none =>
      rw [List.filterMap_cons_none ht] at h
      exact hskip h
    | some n =>
      rw [List.filterMap_cons_some ht] at h
      cases h with
      | cons _ h => exact hskip h
      | cons_cons _ h =>
        obtain ⟨us, hus, hall⟩ := ih h
        exact ⟨t :: us, hus.cons_cons t, .cons ht hall⟩

end Token

namespace Tree

/-- A partial tree that is there has a node that is no operator. -/
theorem IsPartial.exists_operand {t : Tree} (ht : t.IsPartial) (hne : t ≠ .absent) :
    ∃ n ∈ t.inOrder, ∀ op, n.kind ≠ .operator op := by
  induction t with
  | absent => exact absurd rfl hne
  | node kind text left right ihl _ =>
    cases kind with
    | operator op =>
      -- the left operand is there
      obtain ⟨n, hn, hkind⟩ := ihl ht.2.1 ht.1
      exact ⟨n, List.mem_append_left _ hn, hkind⟩
    | literal format => exact ⟨⟨.literal format, text⟩, by simp [inOrder], by simp⟩
    | name => exact ⟨⟨.name, text⟩, by simp [inOrder], by simp⟩
    | function f => exact ⟨⟨.function f, text⟩, by simp [inOrder], by simp⟩
    | invalid defect => exact ⟨⟨.invalid defect, text⟩, by simp [inOrder], by simp⟩
    | error => exact ⟨⟨.error, text⟩, by simp [inOrder], by simp⟩

end Tree

/-! ## Levels -/

namespace Level

open Reckoner.Tree

variable {l : Level} {x : Sized}

theorem inOrder_addOperand (hl : l.expectsOperand = true) (x : Sized) :
    (l.addOperand x).tree.inOrder = l.tree.inOrder ++ x.tree.inOrder := by
  cases l with
  | single | joined => cases hl
  | empty => rfl
  | pending | nested =>
    simp [addOperand, tree, whole, Sized.pending, Sized.binary, Tree.binary, inOrder]

theorem inOrder_addOperator (hl : l.expectsOperand = false) (op : Operator) :
    (l.addOperator op).tree.inOrder = l.tree.inOrder ++ [⟨.operator op, op.symbol⟩] := by
  cases l with
  | empty | pending | nested => cases hl
  | single x => rfl
  | joined left top right =>
    simp only [addOperator]
    split_ifs <;> simp [tree, whole, Sized.pending, Sized.binary, Tree.binary, inOrder]

end Level

namespace Parser

variable {limit : Nat} {p : Parser} {t : Token} {x : Sized}

/-! ## Nodes -/

/-- The nodes before the innermost level: those of the enclosing levels, each followed by
    the node of the token that opened the level inside. -/
def nodesBefore : List Frame → List Tree.Node
  | [] => []
  | f :: fs => nodesBefore fs ++ f.outer.tree.inOrder ++ f.opening.node?.toList

/-- The nodes of all open levels. -/
def nodes (p : Parser) : List Tree.Node := nodesBefore p.frames ++ p.level.tree.inOrder

theorem nodes_eq_of_levels {q : Parser} (hf : q.frames = p.frames) (hl : q.level = p.level) :
    q.nodes = p.nodes := by
  rw [nodes, nodes, hf, hl]

theorem nodes_addOperand (limit : Nat) (p : Parser) (t : Token) (x : Sized) :
    (p.addOperand limit t x).nodes <+ p.nodes ++ x.tree.inOrder := by
  unfold addOperand
  split_ifs with hl
  · rw [nodes, frames_checkHeight, level_checkHeight, Level.inOrder_addOperand hl, nodes,
      List.append_assoc]
  · exact List.sublist_append_left ..

theorem nodes_addOperator (limit : Nat) (p : Parser) (t : Token) (op : Operator) :
    (p.addOperator limit t op).nodes <+ p.nodes ++ [⟨.operator op, op.symbol⟩] := by
  unfold addOperator
  split_ifs with hl
  · exact List.sublist_append_left ..
  · rw [nodes, frames_checkHeight, level_checkHeight,
      Level.inOrder_addOperator (by simpa using hl), nodes, List.append_assoc]

theorem nodes_addStray (p : Parser) (t : Token) (kind : Diagnostic.Kind)
    (defect : Option Tree.Defect) :
    (p.addStray t kind defect).nodes <+
      p.nodes ++ (defect.map fun d => ⟨.invalid d, t.text⟩).toList := by
  unfold addStray
  cases defect with
  | none => exact List.sublist_append_left ..
  | some d =>
    dsimp only
    split_ifs with hl
    · rw [nodes]
      dsimp only
      rw [Level.inOrder_addOperand hl, ← List.append_assoc]
      exact List.Sublist.refl _
    · exact List.sublist_append_left ..

theorem nodes_enter (limit : Nat) (p : Parser) (t : Token) :
    (p.enter limit t).nodes <+ p.nodes ++ t.node?.toList := by
  unfold enter
  split_ifs
  · exact List.sublist_append_left ..
  · simp [nodes, nodesBefore, Level.tree, Level.whole, Tree.inOrder]

/-- A bracket puts its opening token and its level, or a part of them, into the enclosing
    level. -/
theorem nodes_attach (limit : Nat) (p : Parser) (opening : Token) (inner : Level) :
    (p.attach limit opening inner).nodes <+
      p.nodes ++ (opening.node?.toList ++ inner.tree.inOrder) := by
  unfold attach
  split
  · rename_i f hf
    refine (nodes_addOperand ..).trans (List.Sublist.append_left ?_ _)
    simp [Token.node?, hf, Tree.call, Tree.inOrder]
  · rename_i hunknown
    refine (nodes_addOperand ..).trans (List.Sublist.append_left ?_ _)
    simp [Token.node?, hunknown, Tree.leaf, Tree.inOrder]
  · split_ifs
    · exact List.sublist_append_left ..
    · exact (nodes_addOperand ..).trans
        (List.Sublist.append_left (List.sublist_append_right ..) _)

theorem nodes_leave {frame : Frame} {frames : List Frame} (hf : p.frames = frame :: frames)
    (limit : Nat) : (p.leave limit frame frames).nodes <+ p.nodes := by
  refine (nodes_attach limit { p with frames := frames, level := frame.outer } _ _).trans ?_
  simp [nodes, nodesBefore, hf]

theorem nodes_close (limit : Nat) (p : Parser) (t : Token) :
    (p.close limit t).nodes <+ p.nodes := by
  unfold close
  split
  · exact List.Sublist.refl _
  · rename_i frame frames hf
    dsimp only
    split_ifs
    · exact nodes_leave (p := p.report _) hf limit
    · exact nodes_leave hf limit

/-- A step adds the node of its token at most. -/
theorem nodes_step (limit : Nat) (p : Parser) (t : Token) :
    (p.step limit t).nodes <+ p.nodes ++ t.node?.toList := by
  unfold step
  split_ifs
  · exact List.sublist_append_left ..
  · cases hk : t.kind with
    | literal | name =>
      refine (nodes_addOperand ..).trans (List.Sublist.append_left ?_ _)
      simp [Token.node?, hk, Sized.leaf, Tree.leaf, Tree.inOrder]
    | operator op =>
      refine (nodes_addOperator ..).trans (List.Sublist.append_left ?_ _)
      simp [Token.node?, hk]
    | call | unknownCall | opening => exact nodes_enter ..
    | closing => exact (nodes_close ..).trans (List.sublist_append_left ..)
    | strayCharacter => exact List.sublist_append_left ..
    | strayInNumber | strayInName =>
      refine (nodes_addStray ..).trans (List.Sublist.append_left ?_ _)
      simp [Token.node?, hk]
    | finish => exact List.sublist_append_left ..

theorem nodes_run (limit : Nat) (ts : List Token) :
    (start.run limit ts).nodes <+ ts.filterMap Token.node? := by
  induction ts using List.reverseRecOn with
  | nil => exact List.Sublist.refl _
  | append_singleton ts t ih =>
    rw [run_append, List.filterMap_append]
    have hlast : [t].filterMap Token.node? = t.node?.toList := by
      cases ht : t.node? <;> simp [ht]
    rw [hlast]
    exact (nodes_step limit _ t).trans (ih.append_right _)

/-! ## Operands -/

/-- Something was read that becomes part of the tree: a level is not empty, or a bracket
    that is open belongs to a call. -/
def Holds (p : Parser) : Prop :=
  p.level.isEmpty = false ∨
    ∃ f ∈ p.frames, f.outer.isEmpty = false ∨ f.opening.kind.isCall = true

/-- The operand joins the level, or the level holds one already. -/
theorem holds_addOperand (limit : Nat) (p : Parser) (t : Token) (x : Sized) :
    (p.addOperand limit t x).Holds := by
  unfold addOperand
  split_ifs with hl
  · left
    rw [level_checkHeight]
    exact Level.isEmpty_addOperand ..
  · have hfull : p.level.expectsOperand = false := by simpa using hl
    exact .inl (Level.isEmpty_eq_false hfull)

theorem holds_addStray (p : Parser) (t : Token) (kind : Diagnostic.Kind) (d : Tree.Defect) :
    (p.addStray t kind (some d)).Holds := by
  unfold addStray
  dsimp only
  split_ifs with hl
  · exact .inl (Level.isEmpty_addOperand ..)
  · exact .inl (Level.isEmpty_eq_false (by simpa using hl))

/-- A call becomes part of the enclosing level, and so does a level that is not empty. -/
theorem holds_attach {opening : Token} {inner : Level}
    (h : p.Holds ∨ opening.kind.isCall = true ∨ inner.isEmpty = false) (limit : Nat) :
    (p.attach limit opening inner).Holds := by
  unfold attach
  split
  · exact holds_addOperand ..
  · exact holds_addOperand ..
  · rename_i hcall hunknown
    split_ifs with he
    · rcases h with hp | hopening | hinner
      · exact hp
      · cases hk : opening.kind <;> simp_all [Token.Kind.isCall]
      · simp [he] at hinner
    · exact holds_addOperand ..

namespace Holds

theorem leave (hp : p.Holds) {frame : Frame} {frames : List Frame}
    (hf : p.frames = frame :: frames) (limit : Nat) : (p.leave limit frame frames).Holds := by
  refine holds_attach ?_ limit
  rcases hp with hlevel | ⟨f, hmem, hheld⟩
  · exact .inr (.inr hlevel)
  · rw [hf, List.mem_cons] at hmem
    rcases hmem with rfl | hmem
    · rcases hheld with houter | hcall
      · exact .inl (.inl houter)
      · exact .inr (.inl hcall)
    · exact .inl (.inr ⟨f, hmem, hheld⟩)

theorem of_levels {q : Parser} (hp : p.Holds) (hf : q.frames = p.frames)
    (hl : q.level.isEmpty = p.level.isEmpty) : q.Holds := by
  unfold Holds
  rw [hf, hl]
  exact hp

theorem addOperator (hp : p.Holds) (limit : Nat) (t : Token) (op : Operator) :
    (p.addOperator limit t op).Holds := by
  unfold Parser.addOperator
  split_ifs
  · exact hp
  · exact hp.of_levels (frames_checkHeight ..)
      (by rw [level_checkHeight]; exact Level.isEmpty_addOperator ..)

theorem enter (hp : p.Holds) (limit : Nat) (t : Token) : (p.enter limit t).Holds := by
  unfold Parser.enter
  split_ifs
  · exact hp
  · right
    rcases hp with hlevel | ⟨f, hmem, hheld⟩
    · exact ⟨_, List.mem_cons_self, .inl hlevel⟩
    · exact ⟨f, List.mem_cons_of_mem _ hmem, hheld⟩

theorem close (hp : p.Holds) (limit : Nat) (t : Token) : (p.close limit t).Holds := by
  unfold Parser.close
  split
  · exact hp
  · rename_i frame frames hf
    dsimp only
    split_ifs
    · exact Holds.leave (p := p.report _) hp hf limit
    · exact hp.leave hf limit

/-- No step takes it back. -/
theorem step (hp : p.Holds) (limit : Nat) (t : Token) : (p.step limit t).Holds := by
  unfold Parser.step
  split_ifs
  · exact hp
  · split
    · exact holds_addOperand ..
    · exact holds_addOperand ..
    · exact hp.addOperator ..
    · exact hp.enter ..
    · exact hp.enter ..
    · exact hp.enter ..
    · exact hp.close ..
    · exact hp
    · exact holds_addStray ..
    · exact holds_addStray ..
    · exact hp

end Holds

/-- A token that stands for an operand leaves something, unless it exceeds the limit. -/
theorem holds_step (ht : t.kind.isOperandLike = true) (h : (p.step limit t).halted = false) :
    (p.step limit t).Holds := by
  have hp := halted_of_step h
  unfold step at h ⊢
  rw [if_neg (by simp [hp])] at h ⊢
  have hcall (hk : t.kind.isCall = true) (h : (p.enter limit t).halted = false) :
      (p.enter limit t).Holds := by
    unfold enter at h ⊢
    split_ifs at h ⊢
    · cases h
    · exact .inr ⟨_, List.mem_cons_self, .inr hk⟩
  cases hk : t.kind with
  | literal | name => exact holds_addOperand ..
  | call | unknownCall =>
    rw [hk] at h
    exact hcall (by rw [hk]; rfl) h
  | strayInNumber | strayInName => exact holds_addStray ..
  | operator | opening | closing | strayCharacter | finish => rw [hk] at ht; cases ht

theorem holds_run {ts : List Token} (h : (start.run limit ts).halted = false)
    (hts : ∃ t ∈ ts, t.kind.isOperandLike = true) : (start.run limit ts).Holds := by
  induction ts using List.reverseRecOn with
  | nil => exact absurd hts (by simp)
  | append_singleton ts t ih =>
    rw [run_append, run_cons, run_nil] at h ⊢
    obtain ⟨u, hu, hlike⟩ := hts
    rcases List.mem_append.mp hu with hu | hu
    · exact (ih (halted_of_step h) ⟨u, hu, hlike⟩).step limit t
    · obtain rfl := List.mem_singleton.mp hu
      exact holds_step hlike h

/-! ## The end -/

/-- What the outermost level holds at the end. -/
structure Yields (limit : Nat) (ts : List Token) (p : Parser) : Prop where
  honest : p.Honest
  nodes : p.nodes <+ ts.filterMap Token.node?
  holds : (start.run limit ts).halted = false → (∃ t ∈ ts, t.kind.isOperandLike = true) → p.Holds

theorem exists_yields (limit : Nat) (ts : List Token) :
    ∃ p : Parser, p.Yields limit ts ∧ p.frames = [] ∧
      ended limit ts = p.endLevel none (Token.lastStop ts) := by
  refine exists_unwound (P := Yields limit ts) (fun p frame frames hf hp => ?_) rfl
    ⟨run_induction (fun p t hp => hp.step limit t) ts .start, nodes_run limit ts, holds_run⟩
  have hframes : (p.endLevel (some frame.opening) (Token.lastStop ts)).frames =
      frame :: frames := by
    rw [frames_endLevel, hf]
  refine ⟨(hp.honest.settled_endLevel ..).leave hframes limit, (nodes_leave hframes limit).trans ?_,
    fun hrun hts => ?_⟩
  · rw [nodes_eq_of_levels (frames_endLevel ..) (level_endLevel ..)]
    exact hp.nodes
  · have hheld : (p.endLevel (some frame.opening) (Token.lastStop ts)).Holds :=
      (hp.holds hrun hts).of_levels (frames_endLevel ..)
        (congrArg Level.isEmpty (level_endLevel ..))
    exact hheld.leave hframes limit

namespace Yields

variable {ts : List Token}

theorem inOrder_tree (hp : p.Yields limit ts) (hf : p.frames = []) :
    p.level.tree.inOrder <+ ts.filterMap Token.node? := by
  have hnodes := hp.nodes
  rwa [Parser.nodes, hf, nodesBefore, List.nil_append] at hnodes

theorem tree_eq_absent_iff (hp : p.Yields limit ts) (hf : p.frames = [])
    (hrun : (start.run limit ts).halted = false) :
    p.level.tree = .absent ↔ ∀ t ∈ ts, t.kind.isOperandLike = false := by
  constructor
  · intro habsent
    by_contra hsome
    have hlike : ∃ t ∈ ts, t.kind.isOperandLike = true := by simpa using hsome
    rcases hp.holds hrun hlike with hlevel | ⟨f, hmem, -⟩
    · exact (hp.honest.level.isPart_tree hlevel).ne_absent habsent
    · rw [hf] at hmem
      cases hmem
  · intro hnone
    by_contra hpresent
    -- an operator alone is no tree: there is an operand, which comes from a token
    obtain ⟨n, hn, hkind⟩ := hp.honest.level.isPartial_tree.exists_operand hpresent
    obtain ⟨t, ht, hnode⟩ := List.mem_filterMap.mp ((hp.inOrder_tree hf).subset hn)
    have hlike := Token.isOperandLike_of_node? hnode hkind
    rw [hnone t ht] at hlike
    cases hlike

end Yields

end Parser

/-- Read in order, the tree of a parse is made of the nodes of a part of the tokens, each
    token giving one node, in their order. Unless it is reported that the limit was exceeded,
    there is no tree exactly if no token stands for an operand. -/
theorem parse_inOrder (limit : Nat) (tokens : List Token) :
    (∃ ts, ts <+ Token.upToFinish tokens ∧
      List.Forall₂ (fun t n => t.node? = some n) ts (parse limit tokens).tree.inOrder) ∧
    ((∀ d ∈ (parse limit tokens).diagnostics, d.kind ≠ .tooDeep) →
      ((parse limit tokens).tree = .absent ↔
        ∀ t ∈ Token.upToFinish tokens, t.kind.isOperandLike = false)) := by
  obtain ⟨p, hp, hf, hended⟩ := Parser.exists_yields limit (Token.upToFinish tokens)
  have htree : (parse limit tokens).tree = p.level.tree := by
    have hlevel := congrArg Parser.level hended
    rw [Parser.level_endLevel] at hlevel
    exact congrArg Level.tree hlevel
  rw [htree]
  refine ⟨Token.exists_sublist_of_nodes (hp.inOrder_tree hf), fun h => ?_⟩
  have hrun : (Parser.start.run limit (Token.upToFinish tokens)).halted = false :=
    (Parser.haltsAloud_run limit _).halted_eq_false (Parser.extends_unwind ..) h
  exact hp.tree_eq_absent_iff hf hrun

/-- Of an operator without an operand, a call and a variable after it only the call is left. -/
theorem parse_inOrder_call :
    let tokens : List Token := [⟨.operator .mul, "", ⟨0, 1⟩⟩, ⟨.call .sin, "sin(", ⟨1, 5⟩⟩,
      ⟨.name, "a", ⟨5, 6⟩⟩, ⟨.closing, "", ⟨6, 7⟩⟩, ⟨.name, "b", ⟨8, 9⟩⟩]
    (∀ d ∈ (parse 2 tokens).diagnostics, d.kind ≠ .tooDeep) ∧
      (parse 2 tokens).tree.inOrder = [⟨.function .sin, "sin"⟩, ⟨.name, "a"⟩] ∧
      ((parse 2 tokens).tree = .absent ↔
        ∀ t ∈ Token.upToFinish tokens, t.kind.isOperandLike = false) := by
  intro tokens
  have hshallow : ∀ d ∈ (parse 2 tokens).diagnostics, d.kind ≠ .tooDeep := by decide
  exact ⟨hshallow, by decide, (parse_inOrder 2 tokens).2 hshallow⟩

end Reckoner
