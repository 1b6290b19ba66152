import Reckoner.Tree.Level
import Mathlib.Tactic.Common

/-!
# The grammar of expressions

    expression ::= term (loose term)*
    term       ::= atom (tight atom)*
    atom       ::= operand | '(' expression ')' | call expression ')'

An operand is a literal or a variable, a call the name of a known function with its
opening bracket. The tight operators are multiplication and division, all others are
loose. A repetition is read from its end: an expression is a term, or an expression, a
loose operator and a term. So its tree groups to the left.

* `Derives`: derivations, with the depth of their brackets and their trees;
* `Denotes`: the same up to a depth, for a tree with its height.
-/

namespace Reckoner

/-! ## Operators of both strengths -/

namespace Operator

/-- The operators that join the atoms of a term. -/
def isTight : Operator → Bool
  | mul | div => true
  | add | sub | rem | or | xor | and => false

theorem precedence_lt_iff {a b : Operator} :
    a.precedence < b.precedence ↔ a.isTight = false ∧ b.isTight = true := by
  cases a <;> cases b <;> decide

end Operator

/-! ## Heights of trees with their operands -/

namespace Sized

/-- A tree with its own height. -/
def ofTree (x : Tree) : Sized := ⟨x, x.height⟩

@[simp] theorem tree_ofTree (x : Tree) : (ofTree x).tree = x := rfl

@[simp] theorem height_ofTree (x : Tree) : (ofTree x).height = x.height := rfl

theorem binary_ofTree (op : Operator) (x y : Tree) :
    binary op (ofTree x) (ofTree y) = ofTree (.binary op x y) := rfl

theorem height_binary {op : Operator} {x y : Sized} (hx : x.height = x.tree.height)
    (hy : y.height = y.tree.height) : (binary op x y).height = (binary op x y).tree.height := by
  simp only [binary, Tree.binary, Tree.height, hx, hy]

end Sized

/-! ## Derivations -/

namespace Grammar

/-- The categories of the grammar. -/
inductive Category
  | atom | term | expression
deriving DecidableEq, Repr

/-- `Derives c n ts x`: the tokens `ts` have a derivation from the category `c` whose
    brackets are nested `n` deep and whose tree is `x`. A call counts as a bracket. -/
inductive Derives : Category → Nat → List Token → Tree → Prop
  | operand {t : Token} {x : Tree} : Tree.ofToken? t = some x → Derives .atom 0 [t] x
  | group {o c : Token} {n : Nat} {ts : List Token} {x : Tree} : o.kind = .opening →
      Derives .expression n ts x → c.kind = .closing → Derives .atom (n + 1) (o :: ts ++ [c]) x
  | call {o c : Token} {f : Function} {n : Nat} {ts : List Token} {x : Tree} :
      o.kind = .call f → Derives .expression n ts x → c.kind = .closing →
      Derives .atom (n + 1) (o :: ts ++ [c]) (.call f x)
  | atom {n : Nat} {ts : List Token} {x : Tree} : Derives .atom n ts x → Derives .term n ts x
  | tight {t : Token} {op : Operator} {m n : Nat} {ts us : List Token} {x y : Tree} :
      Derives .term m ts x → t.kind = .operator op → op.isTight = true → Derives .atom n us y →
      Derives .term (max m n) (ts ++ t :: us) (.binary op x y)
  | term {n : Nat} {ts : List Token} {x : Tree} :
      Derives .term n ts x → Derives .expression n ts x
  | loose {t : Token} {op : Operator} {m n : Nat} {ts us : List Token} {x y : Tree} :
      Derives .expression m ts x → t.kind = .operator op → op.isTight = false →
      Derives .term n us y → Derives .expression (max m n) (ts ++ t :: us) (.binary op x y)

/-- The category that stands to the left of an operator, and that the operator forms. -/
def leftOf (op : Operator) : Category := if op.isTight then .term else .expression

/-- The category that stands to the right of an operator. -/
def rightOf (op : Operator) : Category := if op.isTight then .atom else .term

/-- The tokens have a derivation whose brackets are nested at most `n` deep, and `x` is
    its tree with the height of that. -/
def Denotes (c : Category) (n : Nat) (ts : List Token) (x : Sized) : Prop :=
  x.height = x.tree.height ∧ ∃ m ≤ n, Derives c m ts x.tree

namespace Derives

/-- The end marker occurs in no derivation. -/
theorem isFinish_eq_false {c : Category} {n : Nat} {ts : List Token} {x : Tree}
    (h : Derives c n ts x) : ∀ t ∈ ts, t.isFinish = false := by
  induction h with
  | @operand t x hx =>
    intro u hu
    obtain rfl := List.mem_singleton.mp hu
    cases hk : u.kind <;> simp_all [Tree.ofToken?, Token.isFinish]
  | group ho _ hc ih | call ho _ hc ih =>
    intro u hu
    simp only [List.cons_append, List.mem_cons, List.mem_append, List.not_mem_nil, or_false] at hu
    rcases hu with rfl | hu | rfl
    · simp [Token.isFinish, ho]
    · exact ih u hu
    · simp [Token.isFinish, hc]
  | atom _ ih | term _ ih => exact ih
  | tight _ ht _ _ ih1 ih2 | loose _ ht _ _ ih1 ih2 =>
    intro u hu
    simp only [List.mem_append, List.mem_cons] at hu
    rcases hu with hu | rfl | hu
    · exact ih1 u hu
    · simp [Token.isFinish, ht]
    · exact ih2 u hu

end Derives

/-! ## Derivations up to a depth -/

namespace Denotes

variable {n : Nat} {ts us : List Token} {t o c : Token} {x y : Sized} {op : Operator}

theorem operand {k : Tree.Kind} {text : String} (h : Tree.ofToken? t = some (.leaf k text)) :
    Denotes .atom n [t] (.leaf k text) := ⟨rfl, 0, n.zero_le, .operand h⟩

theorem group (ho : o.kind = .opening) (h : Denotes .expression n ts x) (hc : c.kind = .closing) :
    Denotes .atom (n + 1) (o :: ts ++ [c]) x := by
  obtain ⟨hx, m, hm, hd⟩ := h
  exact ⟨hx, m + 1, by omega, .group ho hd hc⟩

theorem call {f : Function} (ho : o.kind = .call f) (h : Denotes .expression n ts x)
    (hc : c.kind = .closing) :
    Denotes .atom (n + 1) (o :: ts ++ [c]) ⟨.call f x.tree, x.height + 1⟩ := by
  obtain ⟨hx, m, hm, hd⟩ := h
  refine ⟨?_, m + 1, by omega, .call ho hd hc⟩
  simp only [Tree.call, Tree.height, hx]
  omega

/-- An atom may stand on either side of an operator. -/
theorem leftOf (h : Denotes .atom n ts x) : Denotes (leftOf op) n ts x := by
  obtain ⟨hx, m, hm, hd⟩ := h
  refine ⟨hx, m, hm, ?_⟩
  unfold Grammar.leftOf
  split_ifs
  · exact .atom hd
  · exact .term (.atom hd)

theorem rightOf (h : Denotes .atom n ts x) : Denotes (rightOf op) n ts x := by
  obtain ⟨hx, m, hm, hd⟩ := h
  refine ⟨hx, m, hm, ?_⟩
  unfold Grammar.rightOf
  split_ifs
  · exact hd
  · exact .atom hd

theorem binary (hx : Denotes (Grammar.leftOf op) n ts x) (ht : t.kind = .operator op)
    (hy : Denotes (Grammar.rightOf op) n us y) :
    Denotes (Grammar.leftOf op) n (ts ++ t :: us) (.binary op x y) := by
  obtain ⟨hx, k, hk, hdx⟩ := hx
  obtain ⟨hy, m, hm, hdy⟩ := hy
  refine ⟨Sized.height_binary hx hy, max k m, by omega, ?_⟩
  unfold Grammar.leftOf at hdx ⊢
  unfold Grammar.rightOf at hdy
  split_ifs at hdx hdy ⊢ with hop
  · exact .tight hdx ht hop hdy
  · exact .loose hdx ht (by simpa using hop) hdy

/-- What an operator forms is an expression. -/
theorem expression (h : Denotes (Grammar.leftOf op) n ts x) : Denotes .expression n ts x := by
  obtain ⟨hx, m, hm, hd⟩ := h
  refine ⟨hx, m, hm, ?_⟩
  unfold Grammar.leftOf at hd
  split_ifs at hd
  · exact .term hd
  · exact hd

end Denotes

end Grammar

end Reckoner
