import Reckoner.Proofs.Token.Requests

/-!
# Streaming under every schedule

With a channel between a lexer and its consumer the order of the steps is open: the
producer may be ahead of the consumer as far as the capacity allows, and either side may
have to wait for the other. The consumer has requests of both kinds to make. Reading a token
and sending it are one event, since only the sending can be noticed.

* `Exchange.Step`: what each event does to a channel and its consumer, and
  `Exchange.run?` the state after a schedule, which is a list of events;
* `Exchange.Faithful`: the tokens received, the tokens in the queue and the tokens to be sent
  are the tokens of the source with the end marker, and the answers given and those that are
  due are the answers that these tokens are. Every event keeps this
  (`Exchange.Faithful.step`);
* `Exchange.bounded_of_run`: the queue never holds more than the capacity allows;
* `Exchange.Faithful.exists_step`: while requests are left, one of the sides can go on, and
  `Exchange.load_of_run`: not for ever;
* `Channel.agreeAt_answers`: whole requests of a channel are a schedule;
* `schedule_unobservable`: under every schedule the answers are those of a lexer that is
  asked itself, but for the end marker after the end.
-/

namespace Reckoner

/-! ## A channel with its consumer -/

namespace Channel

/-- The tokens that the producer has not sent, with the end marker. -/
def unsent (c : Channel) : List Token := (c.producer.map Lexer.marked).getD []

/-- The tokens that have not been received, with the end marker. -/
def pending (c : Channel) : List Token := c.queue ++ c.unsent

/-- The answer to a request that is made by itself. -/
def answer (c : Channel) : Request → Option Token × Channel
  | .token => (some c.next.1, c.next.2)
  | .item => c.next?

/-- The answers to requests that are made one by one. -/
def answers (c : Channel) : List Request → List (Option Token)
  | [] => []
  | r :: rs => (c.answer r).1 :: (c.answer r).2.answers rs

theorem answer_eq (c : Channel) (r : Request) : c.answer r = (r.answer c.next.1, c.next.2) := by
  cases r <;> rfl

variable {c c' : Channel}

/-- Sending moves one token from the producer to the queue. -/
theorem send?_eq_some (h : c.send? = some c') : c.hasRoom = true ∧
    ∃ t, c.unsent = t :: c'.unsent ∧ c'.queue = c.queue ++ [t] ∧ c'.capacity = c.capacity ∧
      c'.waiting = c.waiting ∧ c'.finished = c.finished := by
  unfold send? at h
  split at h
  · rename_i l hl
    split_ifs at h with hroom
    rcases hnext : l.next with ⟨t, l'⟩
    simp only [hnext, Option.some.injEq] at h
    subst h
    refine ⟨hroom, t, ?_, rfl, rfl, rfl, rfl⟩
    rw [unsent, hl, Option.map_some, Option.getD_some, l.marked_eq, hnext]
    cases t.isFinish <;> simp [unsent]
  · cases h

/-- A producer that is not done can send while there is room. -/
theorem isSome_send? (hroom : c.hasRoom = true) (hunsent : c.unsent ≠ []) :
    c.send?.isSome = true := by
  cases hl : c.producer with
  | none => simp [unsent, hl] at hunsent
  | some l => simp [send?, hl, hroom]

end Channel

/-- A channel together with a consumer that has requests to make. -/
structure Exchange where
  channel : Channel
  /-- the requests without an answer. The first one has been made if the consumer waits. -/
  requests : List Request
  /-- the tokens received -/
  received : List Token
  /-- the answers -/
  answers : List (Option Token)
deriving DecidableEq, Repr

namespace Exchange

/-- What can happen next. -/
inductive Event
  /-- the producer sends a token -/
  | send
  /-- the consumer makes a request and waits -/
  | ask
  /-- the consumer receives a token, which answers its request -/
  | receive
  /-- a request after the end marker was received is answered at once -/
  | pastEnd
  /-- the consumer waits, and the producer is gone -/
  | hangUp
deriving DecidableEq, Repr

/-- A source and requests, before any event. -/
def start (caret : Caret) (capacity : Nat) (source : String) (requests : List Request) :
    Exchange :=
  ⟨.ofString caret capacity source, requests, [], []⟩

/-- Answers a request, and leaves the other ones. -/
def settle (x : Exchange) (r : Request) (rs : List Request) (t : Token) (c : Channel) : Exchange :=
  { x with channel := c, requests := rs, answers := x.answers ++ [r.answer t] }

/-- The state after an event, if the event is possible. -/
def step? (x : Exchange) : Event → Option Exchange
  | .send => x.channel.send?.map fun c => { x with channel := c }
  | .ask =>
    if x.requests.isEmpty then none else x.channel.ask?.map fun c => { x with channel := c }
  | .receive =>
    match x.requests, x.channel.receive? with
    | r :: rs, some (t, c) => some { x.settle r rs t c with received := x.received ++ [t] }
    | _, _ => none
  | .pastEnd =>
    match x.requests with
    | r :: rs => if x.channel.finished then some (x.settle r rs (.finish 0) x.channel) else none
    | [] => none
  | .hangUp =>
    match x.requests with
    | r :: rs =>
      if x.channel.waiting && x.channel.queue.isEmpty && x.channel.producer.isNone then
        some (x.settle r rs (.finish 0) { x.channel with waiting := false, finished := true })
      else none
    | [] => none

/-- The state after a schedule, if all of its events are possible in their order. -/
def run? (x : Exchange) : List Event → Option Exchange
  | [] => some x
  | e :: es => (x.step? e).bind fun y => y.run? es

variable {x y z : Exchange} {e : Event}

/-- What an event does. -/
inductive Step (x : Exchange) : Event → Exchange → Prop
  | send {t : Token} {c : Channel} : x.channel.hasRoom = true → x.channel.unsent = t :: c.unsent →
      c.queue = x.channel.queue ++ [t] → c.capacity = x.channel.capacity →
      c.waiting = x.channel.waiting → c.finished = x.channel.finished →
      Step x .send { x with channel := c }
  | ask : x.requests ≠ [] → x.channel.waiting = false → x.channel.finished = false →
      Step x .ask { x with channel := { x.channel with waiting := true } }
  | receive {r : Request} {rs : List Request} {t : Token} {queue : List Token} :
      x.requests = r :: rs → x.channel.waiting = true → x.channel.queue = t :: queue →
      Step x .receive
        { x.settle r rs t
            { x.channel with queue := queue, waiting := false, finished := t.isFinish } with
          received := x.received ++ [t] }
  | pastEnd {r : Request} {rs : List Request} : x.requests = r :: rs → x.channel.finished = true →
      Step x .pastEnd (x.settle r rs (.finish 0) x.channel)
  | hangUp {r : Request} {rs : List Request} : x.requests = r :: rs → x.channel.waiting = true →
      x.channel.queue = [] → x.channel.producer = none →
      Step x .hangUp
        (x.settle r rs (.finish 0) { x.channel with waiting := false, finished := true })

theorem step_of_step? (h : x.step? e = some y) : Step x e y := by
  cases e with
  | send =>
    obtain ⟨c, hc, rfl⟩ := Option.map_eq_some_iff.mp h
    obtain ⟨hroom, t, hunsent, hqueue, hcapacity, hwaiting, hfinished⟩ := Channel.send?_eq_some hc
    exact .send hroom hunsent hqueue hcapacity hwaiting hfinished
  | ask =>
    simp only [step?] at h
    split_ifs at h with hrequests
    obtain ⟨c, hc, rfl⟩ := Option.map_eq_some_iff.mp h
    unfold Channel.ask? at hc
    split_ifs at hc with hbusy
    obtain rfl := Option.some.inj hc
    simp only [Bool.or_eq_true, not_or, Bool.not_eq_true] at hbusy
    exact .ask (by simpa using hrequests) hbusy.2 hbusy.1
  | receive =>
    simp only [step?] at h
    split at h
    · rename_i r rs t c hrequests hc
      obtain rfl := Option.some.inj h
      unfold Channel.receive? at hc
      split at hc
      · rename_i u queue hqueue
        split_ifs at hc with hwaiting
        obtain ⟨rfl, rfl⟩ := Prod.mk.inj (Option.some.inj hc)
        exact .receive hrequests hwaiting hqueue
      · cases hc
    · cases h
  | pastEnd =>
    simp only [step?] at h
    split at h
    · rename_i r rs hrequests
      split_ifs at h with hfinished
      obtain rfl := Option.some.inj h
      exact .pastEnd hrequests hfinished
    · cases h
  | hangUp =>
    simp only [step?] at h
    split at h
    · rename_i r rs hrequests
      split_ifs at h with hgone
      obtain rfl := Option.some.inj h
      simp only [Bool.and_eq_true, List.isEmpty_iff, Option.isNone_iff_eq_none] at hgone
      exact .hangUp hrequests hgone.1.1 hgone.1.2 hgone.2
    · cases h

/-! ### What every schedule keeps -/

/-- Nothing is lost, doubled or reordered: the tokens received and those that are under way are
    the tokens of the whole, and the answers with those to come are the answers that the whole
    is. -/
structure Faithful (whole : List Token) (requests : List Request) (x : Exchange) : Prop where
  tokens : x.received ++ x.channel.pending = whole
  answers : x.answers ++ Request.serve (.finish 0) x.channel.pending x.requests =
    Request.serve (.finish 0) whole requests
  finished : x.channel.finished = true → x.channel.pending = []
  unfinished : x.channel.finished = false → Token.EndsOnce x.channel.pending
  waiting : x.channel.waiting = true → x.requests ≠ [] ∧ x.channel.finished = false

variable {whole : List Token} {requests : List Request}

theorem faithful_start (caret : Caret) (capacity : Nat) (source : String)
    (requests : List Request) :
    Faithful (tokenize caret source ++ [.finish source.utf8ByteSize]) requests
      (start caret capacity source requests) := by
  have hpending : (start caret capacity source requests).channel.pending =
      tokenize caret source ++ [.finish source.utf8ByteSize] := Lexer.marked_ofString caret source
  constructor
  · exact hpending
  · rw [hpending]
    rfl
  · exact fun h => Bool.noConfusion h
  · exact fun _ => Lexer.endsOnce_marked _
  · exact fun h => Bool.noConfusion h

theorem pending_of_send {c : Channel} {t : Token} (hunsent : x.channel.unsent = t :: c.unsent)
    (hqueue : c.queue = x.channel.queue ++ [t]) : c.pending = x.channel.pending := by
  simp [Channel.pending, hunsent, hqueue]

/-- The producer is never gone while the consumer waits. -/
theorem Faithful.not_hangUp (h : x.Faithful whole requests) : ¬ Step x .hangUp y := by
  rintro ⟨⟩
  rename_i r rs hrequests hwaiting hqueue hproducer
  have hpending := h.unfinished (h.waiting hwaiting).2
  simp only [Channel.pending, Channel.unsent, hqueue, hproducer] at hpending
  exact hpending

theorem Faithful.step (h : x.Faithful whole requests) (hs : Step x e y) :
    y.Faithful whole requests := by
  cases hs with
  | send hroom hunsent hqueue hcapacity hwaiting hfinished =>
    have hpending := pending_of_send hunsent hqueue
    constructor <;> simp only [hpending, hwaiting, hfinished]
    exacts [h.tokens, h.answers, h.finished, h.unfinished, h.waiting]
  | ask hrequests hwaiting hfinished =>
    exact ⟨h.tokens, h.answers, h.finished, h.unfinished, fun _ => ⟨hrequests, hfinished⟩⟩
  | @receive r rs t queue hrequests hwaiting hqueue =>
    -- the first of the tokens under way answers the request
    obtain ⟨rest, hrest⟩ : ∃ rest, rest = queue ++ x.channel.unsent := ⟨_, rfl⟩
    have hpending : x.channel.pending = t :: rest := by
      rw [Channel.pending, hqueue, hrest, List.cons_append]
    have hends := h.unfinished (h.waiting hwaiting).2
    have htokens : x.received ++ [t] ++ rest = whole := by
      rw [List.append_assoc, List.singleton_append, ← hpending, h.tokens]
    have hanswers : x.answers ++ [r.answer t] ++ Request.serve (.finish 0) rest rs =
        Request.serve (.finish 0) whole requests := by
      rw [← h.answers, hpending, hrequests, List.append_assoc]
      rfl
    rw [hpending, Token.endsOnce_cons] at hends
    subst hrest
    exact ⟨htokens, hanswers, hends.1, hends.2, fun hw => Bool.noConfusion hw⟩
  | @pastEnd r rs hrequests hfinished =>
    have hpending := h.finished hfinished
    have hanswers : x.answers ++ [r.answer (.finish 0)] ++
        Request.serve (.finish 0) x.channel.pending rs =
          Request.serve (.finish 0) whole requests := by
      rw [← h.answers, hpending, hrequests, List.append_assoc]
      rfl
    refine ⟨h.tokens, hanswers, h.finished, h.unfinished, fun hw => ?_⟩
    exact Bool.noConfusion (hfinished.symm.trans (h.waiting hw).2)
  | hangUp hrequests hwaiting hqueue hproducer =>
    exact absurd (.hangUp hrequests hwaiting hqueue hproducer) h.not_hangUp

/-- What every event keeps holds after every schedule. -/
theorem run?_induction {P : Exchange → Prop} (hstep : ∀ {x y e}, P x → Step x e y → P y)
    {es : List Event} (hx : P x) (hr : x.run? es = some y) : P y := by
  induction es generalizing x with
  | nil =>
    obtain rfl := Option.some.inj hr
    exact hx
  | cons e es ih =>
    obtain ⟨z, hz, hr⟩ := Option.bind_eq_some_iff.mp hr
    exact ih (hstep hx (step_of_step? hz)) hr

theorem Faithful.run (h : x.Faithful whole requests) {es : List Event}
    (hr : x.run? es = some y) : y.Faithful whole requests :=
  run?_induction Faithful.step h hr

theorem Faithful.length_answers (h : x.Faithful whole requests) :
    x.answers.length + x.requests.length = requests.length := by
  simpa using congrArg List.length h.answers

/-- The answers given are the first ones of those that the whole is. -/
theorem Faithful.answers_eq (h : x.Faithful whole requests) : x.answers =
    Request.serve (.finish 0) whole (requests.take x.answers.length) := by
  rw [← Request.take_serve, ← h.answers, List.take_left]

theorem Faithful.agreeAt {final : Nat} (h : x.Faithful whole requests)
    (hw : Token.EndsOnce whole) {i : Nat} (hi : i < x.answers.length) :
    AgreeAt final requests x.answers (Request.serve (.finish final) whole requests) i := by
  have hagree : AgreeAt final requests (Request.serve (.finish 0) whole requests)
      (Request.serve (.finish final) whole requests) i := Request.agreeAt_serve hw i
  rwa [AgreeAt, ← h.answers, List.getElem?_append_left hi] at hagree

/-- The queue holds no more than the capacity, but for a token that is handed over. -/
def Bounded (x : Exchange) : Prop :=
  x.channel.queue.length ≤ x.channel.capacity ∨
    x.channel.queue.length = 1 ∧ x.channel.waiting = true

theorem Bounded.step (h : x.Bounded) (hs : Step x e y) : y.Bounded := by
  cases hs with
  | send hroom hunsent hqueue hcapacity hwaiting hfinished =>
    simp only [Channel.hasRoom, Bool.or_eq_true, Bool.and_eq_true, decide_eq_true_eq,
      List.isEmpty_iff] at hroom
    simp only [Bounded, hqueue, hcapacity, hwaiting, List.length_append, List.length_singleton]
    rcases hroom with hroom | ⟨hw, hempty⟩
    · exact .inl hroom
    · exact .inr ⟨by simp [hempty], hw⟩
  | ask hrequests hwaiting hfinished => exact h.imp_right fun hone => ⟨hone.1, rfl⟩
  | receive hrequests hwaiting hqueue =>
    simp only [Bounded, hqueue, List.length_cons] at h
    simp only [Bounded, settle]
    omega
  | pastEnd hrequests hfinished => exact h
  | hangUp hrequests hwaiting hqueue hproducer => exact .inl (by simp [settle, hqueue])

/-- However far the producer is ahead, the capacity is kept. -/
theorem bounded_of_run {caret : Caret} {capacity : Nat} {source : String} {es : List Event}
    (hr : (start caret capacity source requests).run? es = some x) : x.Bounded :=
  run?_induction Bounded.step (.inl (Nat.zero_le _)) hr

/-! ### Progress -/

/-- While requests are left, one of the two sides can go on. -/
theorem Faithful.exists_step (h : x.Faithful whole requests) (hx : x.requests ≠ []) :
    ∃ e, (x.step? e).isSome = true := by
  obtain ⟨r, rs, hrequests⟩ := List.exists_cons_of_ne_nil hx
  cases hfinished : x.channel.finished with
  | true => exact ⟨.pastEnd, by simp [step?, hrequests, hfinished]⟩
  | false =>
    cases hwaiting : x.channel.waiting with
    | false => exact ⟨.ask, by simp [step?, hrequests, Channel.ask?, hfinished, hwaiting]⟩
    | true =>
      cases hqueue : x.channel.queue with
      | cons t queue =>
        exact ⟨.receive, by simp [step?, hrequests, Channel.receive?, hqueue, hwaiting]⟩
      | nil =>
        -- the queue has room for the consumer that waits, and the producer has a token
        have hroom : x.channel.hasRoom = true := by simp [Channel.hasRoom, hqueue, hwaiting]
        have hunsent : x.channel.unsent ≠ [] := fun hnil => by
          have hends := h.unfinished hfinished
          rw [Channel.pending, hqueue, hnil] at hends
          exact hends
        exact ⟨.send, by rw [step?, Option.isSome_map, Channel.isSome_send? hroom hunsent]⟩

/-- A bound on the number of events that are still to come. -/
def load (x : Exchange) : Nat :=
  2 * x.requests.length + x.channel.unsent.length + (!x.channel.waiting).toNat

theorem load_of_step (hs : Step x e y) : y.load + 1 ≤ x.load := by
  cases hs with
  | send hroom hunsent hqueue hcapacity hwaiting hfinished =>
    simp only [load, hunsent, hwaiting, List.length_cons]
    omega
  | ask hrequests hwaiting hfinished => simp [load, hwaiting, Channel.unsent]
  | receive hrequests hwaiting hqueue =>
    simp only [load, settle, hrequests, hwaiting, Channel.unsent, List.length_cons,
      Bool.not_true, Bool.not_false, Bool.toNat_true, Bool.toNat_false]
    omega
  | pastEnd hrequests hfinished =>
    simp only [load, settle, hrequests, List.length_cons]
    omega
  | hangUp hrequests hwaiting hqueue hproducer =>
    simp only [load, settle, hrequests, hwaiting, Channel.unsent, List.length_cons,
      Bool.not_true, Bool.not_false, Bool.toNat_true, Bool.toNat_false]
    omega

theorem load_start (caret : Caret) (capacity : Nat) (source : String) (requests : List Request) :
    (start caret capacity source requests).load =
      2 * requests.length + (tokenize caret source).length + 2 := by
  have hunsent : (start caret capacity source requests).channel.unsent =
      tokenize caret source ++ [.finish source.utf8ByteSize] := Lexer.marked_ofString caret source
  rw [load, hunsent, List.length_append]
  rfl

/-- No schedule goes on for ever. -/
theorem load_of_run {es : List Event} (hr : x.run? es = some y) :
    y.load + es.length ≤ x.load := by
  induction es generalizing x with
  | nil =>
    obtain rfl := Option.some.inj hr
    exact Nat.le_refl _
  | cons e es ih =>
    obtain ⟨z, hz, hr⟩ := Option.bind_eq_some_iff.mp hr
    have hstep := load_of_step (step_of_step? hz)
    have hrun := ih hr
    simp only [List.length_cons]
    omega

/-- Whatever has happened, the requests that are left can be answered. -/
theorem Faithful.exists_run (h : x.Faithful whole requests) :
    ∃ es y, x.run? es = some y ∧ y.requests = [] := by
  induction hn : x.load using Nat.strongRecOn generalizing x with
  | ind n ih =>
    by_cases hx : x.requests = []
    · exact ⟨[], x, rfl, hx⟩
    · obtain ⟨e, he⟩ := h.exists_step hx
      obtain ⟨y, hy⟩ := Option.isSome_iff_exists.mp he
      have hload := load_of_step (step_of_step? hy)
      obtain ⟨es, z, hz, hrequests⟩ := ih y.load (by omega) (h.step (step_of_step? hy)) rfl
      exact ⟨e :: es, z, by simp [run?, hy, hz], hrequests⟩

/-! ### One request at a time -/

theorem run?_append (es fs : List Event) : x.run? (es ++ fs) = (x.run? es).bind (·.run? fs) := by
  induction es generalizing x with
  | nil => rfl
  | cons e es ih => simp [run?, Option.bind_assoc, ih]

/-- A whole request of the channel is a schedule, in which the producer runs only when it is
    waited for. -/
theorem Faithful.exists_run_next (h : x.Faithful whole requests) {r : Request} {rs : List Request}
    (hx : x.requests = r :: rs) (hw : x.channel.waiting = false) :
    ∃ es y, x.run? es = some y ∧ y.requests = rs ∧ y.channel = x.channel.next.2 ∧
      y.channel.waiting = false ∧ y.answers = x.answers ++ [r.answer x.channel.next.1] := by
  obtain ⟨⟨capacity, producer, queue, waiting, finished⟩, _, received, answers⟩ := x
  obtain rfl : waiting = false := hw
  obtain rfl := hx
  cases finished with
  | true => exact ⟨[.pastEnd], _, rfl, rfl, rfl, rfl, rfl⟩
  | false =>
    cases queue with
    | cons t queue => exact ⟨[.ask, .receive], _, rfl, rfl, rfl, rfl, rfl⟩
    | nil =>
      cases producer with
      | none => exact (h.unfinished rfl).elim
      | some l =>
        refine ⟨[.ask, .send, .receive], ?_⟩
        simp [run?, step?, settle, Channel.ask?, Channel.send?, Channel.receive?, Channel.hasRoom,
          Channel.next]

/-- Requests that are made one by one. -/
theorem Faithful.exists_run_answers (h : x.Faithful whole requests)
    (hw : x.channel.waiting = false) :
    ∃ es y, x.run? es = some y ∧ y.requests = [] ∧
      y.answers = x.answers ++ x.channel.answers x.requests := by
  induction hx : x.requests generalizing x with
  | nil => exact ⟨[], x, rfl, hx, by simp [Channel.answers]⟩
  | cons r rs ih =>
    obtain ⟨es, y, hy, hrequests, hchannel, hwaiting, hanswers⟩ := h.exists_run_next hx hw
    obtain ⟨fs, z, hz, hdone, hall⟩ := ih (h.run hy) hwaiting hrequests
    refine ⟨es ++ fs, z, by rw [run?_append, hy]; exact hz, hdone, ?_⟩
    rw [hall, hanswers, hchannel, Channel.answers, Channel.answer_eq]
    simp

end Exchange

/-! ## Agreement -/

/-- To requests that are made one by one a channel answers as a lexer that is asked itself. -/
theorem Channel.agreeAt_answers (caret : Caret) (capacity : Nat) (source : String)
    (requests : List Request) (i : Nat) :
    AgreeAt source.utf8ByteSize requests ((ofString caret capacity source).answers requests)
      ((Scanner.ofString caret source).answers requests) i := by
  have hstart := Exchange.faithful_start caret capacity source requests
  obtain ⟨es, x, hx, hrequests, hanswers⟩ := hstart.exists_run_answers rfl
  have hall := (hstart.run hx).answers
  rw [hrequests, hanswers] at hall
  simp only [Exchange.start, Request.serve, List.nil_append, List.append_nil] at hall
  rw [hall, Scanner.answers_ofString]
  exact Request.agreeAt_serve (Lexer.marked_ofString caret source ▸ Lexer.endsOnce_marked _) i

/-- Under every schedule of a channel and its consumer the tokens received are the first ones
    of the source with its end marker, the two sides never wait for each other, and the answers
    are those of a lexer that is asked itself. -/
theorem schedule_unobservable {caret : Caret} {capacity : Nat} {source : String}
    {requests : List Request} {events : List Exchange.Event} {x : Exchange}
    (h : (Exchange.start caret capacity source requests).run? events = some x) :
    -- nothing is lost, doubled or reordered
    (x.received <+: tokenize caret source ++ [.finish source.utf8ByteSize] ∧
      x.received ++ x.channel.pending =
        tokenize caret source ++ [.finish source.utf8ByteSize]) ∧
    -- while requests are left something can happen, though never that the producer is gone, and
    -- not for ever
    ((x.requests ≠ [] → ∃ e, (x.step? e).isSome = true) ∧ x.step? .hangUp = none ∧
      events.length ≤ 2 * requests.length + (tokenize caret source).length + 2) ∧
    -- every request gets its answer
    (x.answers.length + x.requests.length = requests.length ∧
      ∃ more y, x.run? more = some y ∧ y.requests = []) ∧
    -- the answers are those of a lexer that is asked itself
    (∀ i < x.answers.length, AgreeAt source.utf8ByteSize requests x.answers
      ((Scanner.ofString caret source).answers requests) i) ∧
    -- a parser that asks for tokens until it is refused has the same tree
    ((∀ r ∈ requests, r = .item) → none ∈ x.answers → ∀ limit,
      parse limit x.answers.reduceOption = parse limit (tokenize caret source)) ∧
    ∀ limit, Reading.parseWithin ⟨caret, true, capacity⟩ limit source =
      Reading.parseWithin ⟨caret, false, capacity⟩ limit source := by
  have hx := (Exchange.faithful_start caret capacity source requests).run h
  refine ⟨⟨⟨_, hx.tokens⟩, hx.tokens⟩, ⟨hx.exists_step, ?_, ?_⟩, ⟨hx.length_answers, hx.exists_run⟩,
    fun i hi => ?_, fun hrequests hnone limit => ?_, fun limit => ?_⟩
  · rw [Option.eq_none_iff_forall_ne_some]
    exact fun y hy => hx.not_hangUp (Exchange.step_of_step? hy)
  · have hload := Exchange.load_of_run h
    simp only [Exchange.load_start] at hload
    omega
  · rw [Scanner.answers_ofString]
    exact hx.agreeAt (Lexer.marked_ofString caret source ▸ Lexer.endsOnce_marked _) hi
  · have htokens : x.answers.reduceOption = tokenize caret source := by
      rw [hx.answers_eq] at hnone ⊢
      exact Request.reduceOption_serve (Lexer.isFinish_of_mem_tokens _)
        (fun r hr => hrequests r (List.mem_of_mem_take hr)) hnone
    rw [htokens]
  · simp only [Reading.parseWithin, Reading.tokens_eq_tokenize]

/-- A queue that holds nothing, and requests after the end. -/
theorem schedule_unobservable_rendezvous :
    ∃ x, (Exchange.start .power 0 "7" [.item, .item, .token, .item]).run?
        [.ask, .send, .receive, .ask, .send, .receive, .pastEnd, .pastEnd] = some x ∧
      x.answers = [some ⟨.literal .integer, "7", ⟨0, 1⟩⟩, none, some (.finish 0), none] ∧
      AgreeAt 1 [.item, .item, .token, .item] x.answers
        ((Scanner.ofString .power "7").answers [.item, .item, .token, .item]) 2 := by
  have hrun : (Exchange.start .power 0 "7" [.item, .item, .token, .item]).run?
      [.ask, .send, .receive, .ask, .send, .receive, .pastEnd, .pastEnd] =
        some ⟨⟨0, none, [], false, true⟩, [], [⟨.literal .integer, "7", ⟨0, 1⟩⟩, .finish 1],
          [some ⟨.literal .integer, "7", ⟨0, 1⟩⟩, none, some (.finish 0), none]⟩ := by
    decide
  exact ⟨_, hrun, rfl, (schedule_unobservable hrun).2.2.2.1 2 (by decide)⟩

end Reckoner
