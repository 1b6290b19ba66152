import Reckoner.Proofs.Token.Streaming
import Mathlib.Data.List.ReduceOption

/-!
# Asking for tokens

Tokens are asked for in two ways: for the next token, the end marker included, or for the
next token before the end. The requests may be mixed, and may go on after the end.

* `Lexer.marked`: the tokens of a text with the end marker;
* `Request.serve`: the answers to requests that are served from a list of tokens, and from
  one token over and over after it. That token matters only to requests for a token after
  the end (`Request.agreeAt_serve`);
* `Scanner.answers_ofString`: the answers of a lexer that is asked itself.
-/

namespace Reckoner

/-! ## The end of a text -/

@[simp] theorem Token.isFinish_finish (offset : Nat) : (finish offset).isFinish = true := rfl

namespace Lexer

variable {l l' : Lexer} {t : Token}

/-- The offset of the end of the text. -/
def stop (l : Lexer) : Nat := l.offset + byteLength l.rest

theorem stop_ofString (caret : Caret) (source : String) :
    (ofString caret source).stop = source.utf8ByteSize := by
  simp [stop, ofString, byteLength_toList]

theorem stop_skipBlanks (l : Lexer) : l.skipBlanks.stop = l.stop := by
  have h := byteLength_append (l.rest.takeWhile isBlank) (l.rest.dropWhile isBlank)
  rw [List.takeWhile_append_dropWhile] at h
  simp only [stop, skipBlanks, h]
  omega

theorem stop_of_next? (h : l.next? = some (t, l')) : l'.stop = l.stop := by
  obtain ⟨c, cs, hrest, rfl, rfl⟩ := next?_eq_some h
  have hparts := congrArg byteLength (Piece.parts_head l.caret l.allowsSign c cs)
  simp only [Piece.parts, byteLength_append] at hparts
  rw [← l.stop_skipBlanks]
  simp only [stop, Piece.token, hrest, ← hparts]
  omega

theorem next_of_next?_none (h : l.next? = none) : l.next = (.finish l.stop, l.skipBlanks) := by
  have hstop : l.skipBlanks.offset = l.stop := by
    rw [← l.stop_skipBlanks, stop, rest_of_next?_none h]
    rfl
  simp [next, h, hstop]

theorem stop_next (l : Lexer) : l.next.2.stop = l.stop := by
  cases h : l.next? with
  | none => rw [next_of_next?_none h, stop_skipBlanks]
  | some r =>
    have hnext : l.next = r := by simp [next, h]
    rw [hnext, stop_of_next? h]

/-- After the end marker there is nothing but the end marker. -/
theorem next?_of_isFinish (h : l.next.1.isFinish = true) : l.next.2.next? = none := by
  cases hl : l.next? with
  | none =>
    have hrest := rest_of_next?_none hl
    rw [next_of_next?_none hl]
    simp only [next?, skipBlanks] at hrest ⊢
    simp [hrest]
  | some r =>
    have hnext : l.next = r := by simp [next, hl]
    rw [hnext, isFinish_of_next? hl] at h
    cases h

/-- The tokens from here to the end, and its marker. -/
def marked (l : Lexer) : List Token := l.tokens ++ [.finish l.stop]

theorem marked_of_next?_some (h : l.next? = some (t, l')) : l.marked = t :: l'.marked := by
  rw [marked, marked, tokens_of_next?_some h, stop_of_next? h, List.cons_append]

theorem marked_of_next?_none (h : l.next? = none) : l.marked = [.finish l.stop] := by
  rw [marked, tokens_of_next?_none h, List.nil_append]

theorem marked_ofString (caret : Caret) (source : String) : (ofString caret source).marked =
    tokenize caret source ++ [.finish source.utf8ByteSize] := by
  rw [marked, stop_ofString, tokenize]

/-- The next token is the first one, and after the end marker there is none. -/
theorem marked_eq (l : Lexer) :
    l.marked = l.next.1 :: if l.next.1.isFinish then [] else l.next.2.marked := by
  cases h : l.next? with
  | none => simp [marked_of_next?_none h, next_of_next?_none h]
  | some r =>
    have hnext : l.next = r := by simp [next, h]
    rw [marked_of_next?_some h, hnext, isFinish_of_next? h]
    rfl

end Lexer

/-- The last token is the end marker, and no other one is. -/
def Token.EndsOnce : List Token → Prop
  | [] => False
  | t :: ts => if t.isFinish then ts = [] else EndsOnce ts

theorem Token.endsOnce_cons {t : Token} {ts : List Token} : EndsOnce (t :: ts) ↔
    (t.isFinish = true → ts = []) ∧ (t.isFinish = false → EndsOnce ts) := by
  cases ht : t.isFinish <;> simp [EndsOnce, ht]

theorem Lexer.endsOnce_marked (l : Lexer) : Token.EndsOnce l.marked := by
  have h : ∀ ts : List Token, (∀ t ∈ ts, t.isFinish = false) →
      Token.EndsOnce (ts ++ [.finish l.stop]) := by
    intro ts hts
    induction ts with
    | nil => simp [Token.EndsOnce]
    | cons t ts ih =>
      simp only [List.cons_append, Token.EndsOnce, hts t (by simp)]
      exact ih fun u hu => hts u (by simp [hu])
  exact h _ l.isFinish_of_mem_tokens

/-! ## Requests -/

/-- A request for a token. -/
inductive Request
  /-- for the next token, the end marker included -/
  | token
  /-- for the next token before the end -/
  | item
deriving DecidableEq, Repr

namespace Request

/-- The answer that a token is. -/
def answer (t : Token) : Request → Option Token
  | token => some t
  | item => if t.isFinish then none else some t

/-- The answers that tokens are in their order, and after them one token over and over. -/
def serve (after : Token) : List Token → List Request → List (Option Token)
  | _, [] => []
  | ts, r :: rs => r.answer (ts.headD after) :: serve after ts.tail rs

/-- Whether an answer tells that the end has been reached. -/
def tellsEnd : Option Token → Bool
  | some t => t.isFinish
  | none => true

variable {after : Token} {ts : List Token} {rs : List Request}

@[simp] theorem length_serve (after : Token) (ts : List Token) (rs : List Request) :
    (serve after ts rs).length = rs.length := by
  induction rs generalizing ts with
  | nil => rfl
  | cons r rs ih => simp [serve, ih]

theorem take_serve (n : Nat) : (serve after ts rs).take n = serve after ts (rs.take n) := by
  induction rs generalizing ts n with
  | nil => simp [serve]
  | cons r rs ih =>
    cases n with
    | zero => rfl
    | succ n => simp [serve, ih]

theorem tellsEnd_answer (r : Request) (t : Token) : tellsEnd (r.answer t) = t.isFinish := by
  cases r with
  | token => rfl
  | item => cases h : t.isFinish <;> simp [answer, tellsEnd, h]

end Request

/-- At one place in two lists of answers to the same requests the answers are the same. Only a
    request for a token after an answer that told the end is answered by the end marker at
    different offsets, zero in the first list. -/
def AgreeAt (final : Nat) (requests : List Request) (streamed direct : List (Option Token))
    (i : Nat) : Prop :=
  if requests[i]? = some .token ∧ (direct.take i).any Request.tellsEnd = true then
    streamed[i]? = some (some (.finish 0)) ∧ direct[i]? = some (some (.finish final))
  else streamed[i]? = direct[i]?

namespace Request

variable {final : Nat} {ts : List Token} {rs : List Request}

/-- After the end only requests for a token are answered. -/
theorem serve_nil (n : Nat) (rs : List Request) : serve (.finish n) [] rs =
    rs.map fun r => if r = .token then some (.finish n) else none := by
  induction rs with
  | nil => rfl
  | cons r rs ih => cases r <;> simp [serve, answer, ih]

theorem serve_nil_of_items (n : Nat) (hrs : ∀ r ∈ rs, r = .item) :
    serve (.finish n) [] rs = List.replicate rs.length none := by
  rw [serve_nil, List.eq_replicate_iff]
  refine ⟨List.length_map _, fun a ha => ?_⟩
  obtain ⟨r, hr, rfl⟩ := List.mem_map.mp ha
  rw [hrs r hr]
  rfl

/-- The token that is given after the end matters to no other answers. -/
theorem agreeAt_serve (h : Token.EndsOnce ts) (i : Nat) :
    AgreeAt final rs (serve (.finish 0) ts rs) (serve (.finish final) ts rs) i := by
  induction rs generalizing ts i with
  | nil => simp [AgreeAt, serve]
  | cons r rs ih =>
    cases ts with
    | nil => exact h.elim
    | cons t ts =>
      cases i with
      | zero => simp [AgreeAt, serve]
      | succ i =>
        simp only [AgreeAt, serve, List.headD_cons, List.tail_cons, List.getElem?_cons_succ,
          List.take_succ_cons, List.any_cons, tellsEnd_answer]
        cases ht : t.isFinish with
        | true =>
          obtain rfl : ts = [] := by simpa [Token.EndsOnce, ht] using h
          simp only [serve_nil, List.getElem?_map, Bool.true_or, and_true]
          split_ifs with htoken
          · simp [htoken]
          · cases hr : rs[i]? with
            | none => rfl
            | some r => simp_all
        | false =>
          have hts : Token.EndsOnce ts := by simpa [Token.EndsOnce, ht] using h
          simpa only [AgreeAt, Bool.false_or] using ih hts i

/-- Requests for the tokens before the end bring all of them, once one is refused. -/
theorem reduceOption_serve (hts : ∀ t ∈ ts, t.isFinish = false) (hrs : ∀ r ∈ rs, r = .item)
    (h : none ∈ serve (.finish 0) (ts ++ [.finish final]) rs) :
    (serve (.finish 0) (ts ++ [.finish final]) rs).reduceOption = ts := by
  induction ts generalizing rs with
  | nil =>
    cases rs with
    | nil => cases h
    | cons r rs =>
      obtain ⟨rfl, hitems⟩ := List.forall_mem_cons.mp hrs
      simp [serve, answer, serve_nil_of_items 0 hitems]
  | cons t ts ih =>
    obtain ⟨ht, hts⟩ := List.forall_mem_cons.mp hts
    cases rs with
    | nil => cases h
    | cons r rs =>
      obtain ⟨rfl, hitems⟩ := List.forall_mem_cons.mp hrs
      simp only [List.cons_append, serve, List.headD_cons, List.tail_cons, answer, ht] at h ⊢
      rw [if_neg Bool.false_ne_true, List.reduceOption_cons_of_some, ih hts hitems]
      simpa using h

end Request

/-! ## A lexer that is asked itself -/

/-- A lexer that is asked for one token after the other. -/
structure Scanner where
  lexer : Lexer
  /-- whether the end marker has been given -/
  finished : Bool

namespace Scanner

/-- The beginning of a source. -/
def ofString (caret : Caret) (source : String) : Scanner := ⟨.ofString caret source, false⟩

/-- The answer to a request. A request for a token is put to the lexer even after the end. -/
def answer (s : Scanner) : Request → Option Token × Scanner
  | .token => (some s.lexer.next.1, ⟨s.lexer.next.2, s.finished || s.lexer.next.1.isFinish⟩)
  | .item =>
    if s.finished then (none, s)
    else (if s.lexer.next.1.isFinish then none else some s.lexer.next.1,
      ⟨s.lexer.next.2, s.lexer.next.1.isFinish⟩)

/-- The answers to requests in their order. -/
def answers (s : Scanner) : List Request → List (Option Token)
  | [] => []
  | r :: rs => (s.answer r).1 :: (s.answer r).2.answers rs

/-- The tokens that have not been given, with the end marker. -/
def pending (s : Scanner) : List Token := if s.finished then [] else s.lexer.marked

/-- The end marker is given at the end only. -/
def Valid (s : Scanner) : Prop := s.finished = true → s.lexer.next? = none

variable {s : Scanner}

/-- A request takes the first token that has not been given, or the end marker after it. -/
theorem answer_eq (h : s.Valid) (r : Request) :
    (s.answer r).1 = r.answer (s.pending.headD (.finish s.lexer.stop)) ∧
      (s.answer r).2.pending = s.pending.tail ∧
      (s.answer r).2.lexer.stop = s.lexer.stop ∧ (s.answer r).2.Valid := by
  obtain ⟨l, finished⟩ := s
  cases finished with
  | true =>
    have hnone : l.next? = none := h rfl
    cases r with
    | token =>
      refine ⟨?_, rfl, l.stop_next, fun _ => Lexer.next?_of_isFinish ?_⟩ <;>
        simp [answer, pending, Request.answer, Lexer.next_of_next?_none hnone]
    | item => exact ⟨rfl, rfl, rfl, h⟩
  | false =>
    have hpending : pending ⟨l, false⟩ =
        l.next.1 :: pending ⟨l.next.2, l.next.1.isFinish⟩ := l.marked_eq
    rw [hpending, List.headD_cons, List.tail_cons]
    cases r <;> exact ⟨rfl, rfl, l.stop_next, Lexer.next?_of_isFinish⟩

theorem answers_eq (h : s.Valid) (rs : List Request) :
    s.answers rs = Request.serve (.finish s.lexer.stop) s.pending rs := by
  induction rs generalizing s with
  | nil => rfl
  | cons r rs ih =>
    obtain ⟨hanswer, hpending, hstop, hvalid⟩ := answer_eq h r
    rw [answers, Request.serve, hanswer, ih hvalid, hpending, hstop]

/-- The answers are the tokens of the source, and after them the end marker. -/
theorem answers_ofString (caret : Caret) (source : String) (rs : List Request) :
    (ofString caret source).answers rs = Request.serve (.finish source.utf8ByteSize)
      (tokenize caret source ++ [.finish source.utf8ByteSize]) rs := by
  rw [answers_eq (fun h => Bool.noConfusion h)]
  simp only [pending, ofString, Lexer.stop_ofString, Lexer.marked_ofString]
  rfl

end Scanner

end Reckoner
