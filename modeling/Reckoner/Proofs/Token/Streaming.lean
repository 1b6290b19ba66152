import Reckoner.Reading
import Mathlib.Tactic.Common
import Mathlib.Data.List.TakeWhile

/-!
# Streamed tokens

A channel hands over the tokens of its producer, one for each request, and then the end
marker. So a source has the same tokens whether they are streamed or not.

* `Lexer.length_tokens_le`: a text has no more tokens than characters, which is what the
  channel's bound rests on;
* `Channel.next?_of_idle`: a whole request at an empty queue;
* `stream_eq_tokenize`: streaming changes nothing;
* `Reading.parse_eq`: nor does it change the tree that is read.
-/

namespace Reckoner

/-! ## The end marker -/

namespace Piece

theorem kind_closed (caret : Caret) (kind stray : Token.Kind) (taken rest : List Char) :
    (closed caret kind stray taken rest).kind = kind ∨
      (closed caret kind stray taken rest).kind = stray := by
  unfold closed
  split
  · exact .inl rfl
  · split_ifs
    · exact .inl rfl
    · exact .inr rfl

/-- No piece of the text is the end marker. -/
theorem kind_head_ne_finish (caret : Caret) (signs : Bool) (c : Char) (cs : List Char) :
    (head caret signs c cs).kind ≠ .finish := by
  unfold head
  split_ifs
  · unfold number
    rcases kind_closed caret (.literal _) .strayInNumber _ _ with h | h <;> rw [h] <;> simp
  · unfold word
    dsimp only
    split
    · unfold Token.Kind.ofOpener
      split <;> simp
    · rcases kind_closed caret .name .strayInName _ _ with h | h <;> rw [h] <;> simp
  · simp [single]
  · simp [single]
  · split <;> simp [single]

end Piece

namespace Lexer

variable {l l' : Lexer} {t : Token}

theorem isFinish_of_next? (h : l.next? = some (t, l')) : t.isFinish = false := by
  obtain ⟨c, cs, -, rfl, -⟩ := next?_eq_some h
  exact decide_eq_false (Piece.kind_head_ne_finish _ _ c cs)

/-- A text has no more tokens than characters. -/
theorem length_tokens_le (l : Lexer) : l.tokens.length ≤ l.rest.length := by
  fun_induction tokens l with
  | case1 l h => exact Nat.zero_le _
  | case2 l t l' h ih =>
    have hlt := length_rest_of_next? h
    simp only [List.length_cons]
    omega

/-- The end marker is no token of a text. -/
theorem isFinish_of_mem_tokens (l : Lexer) : ∀ t ∈ l.tokens, t.isFinish = false := by
  fun_induction tokens l with
  | case1 l h => simp
  | case2 l t l' h ih =>
    intro u hu
    rcases List.mem_cons.mp hu with rfl | hu
    · exact isFinish_of_next? h
    · exact ih u hu

end Lexer

theorem Token.upToFinish_eq {ts : List Token} (h : ∀ t ∈ ts, t.isFinish = false) :
    Token.upToFinish ts = ts := by
  simpa [Token.upToFinish] using h

theorem upToFinish_tokenize (caret : Caret) (source : String) :
    Token.upToFinish (tokenize caret source) = tokenize caret source :=
  Token.upToFinish_eq (Lexer.isFinish_of_mem_tokens _)

/-! ## Requests -/

namespace Channel

/-- A channel in which nothing is under way. -/
def idle (capacity : Nat) (l : Lexer) : Channel := ⟨capacity, some l, [], false, false⟩

/-- A request at an empty queue is answered by the producer at once. -/
theorem next_of_idle (capacity : Nat) (l : Lexer) :
    (idle capacity l).next =
      (l.next.1, { idle capacity l with
        producer := if l.next.1.isFinish then none else some l.next.2
        finished := l.next.1.isFinish }) := by
  simp [next, idle, send?, hasRoom, receive?]

theorem next?_of_idle {capacity : Nat} {l l' : Lexer} {t : Token} (h : l.next? = some (t, l')) :
    (idle capacity l).next? = (some t, idle capacity l') := by
  have hnext : l.next = (t, l') := by simp [Lexer.next, h]
  rw [next?, next_of_idle, hnext]
  simp [Lexer.isFinish_of_next? h, idle]

theorem next?_of_idle_none (capacity : Nat) {l : Lexer} (h : l.next? = none) :
    (idle capacity l).next?.1 = none := by
  have hnext : l.next.1 = .finish l.skipBlanks.offset := by simp [Lexer.next, h]
  rw [next?, next_of_idle, hnext]
  simp [Token.isFinish, Token.finish]

theorem take_idle (n capacity : Nat) (l : Lexer) : (idle capacity l).take n = l.tokens.take n := by
  induction n generalizing l with
  | zero => rfl
  | succ n ih =>
    rw [take]
    cases h : l.next? with
    | none =>
      have hnone := next?_of_idle_none capacity h
      rw [Lexer.tokens_of_next?_none h]
      split
      · simp_all
      · rfl
    | some r =>
      obtain ⟨t, l'⟩ := r
      rw [next?_of_idle h, Lexer.tokens_of_next?_some h, List.take_succ_cons]
      exact congrArg (t :: ·) (ih l')

end Channel

/-- A source has the same tokens whether they are streamed or not. -/
theorem stream_eq_tokenize (caret : Caret) (capacity : Nat) (source : String) :
    stream caret capacity source = tokenize caret source := by
  show (Channel.idle capacity (.ofString caret source)).take _ = _
  rw [Channel.take_idle]
  apply List.take_of_length_le
  have := (Lexer.ofString caret source).length_tokens_le
  simp only [Channel.bound, Channel.ofString, List.length_nil, Option.map_some, Option.getD_some]
  omega

namespace Reading

theorem tokens_eq_tokenize (r : Reading) (source : String) :
    r.tokens source = tokenize r.caret source := by
  unfold tokens
  split_ifs
  · exact stream_eq_tokenize ..
  · rfl

/-- Of the settings only the meaning of the caret matters to the tree. -/
theorem parse_eq (r : Reading) (source : String) :
    r.parse source = Reckoner.parse depthLimit (tokenize r.caret source) := by
  rw [parse, parseWithin, tokens_eq_tokenize]

end Reading

end Reckoner
