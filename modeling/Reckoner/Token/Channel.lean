import Reckoner.Token.Lexer

/-!
# Streaming tokens

A lexer can run beside its consumer and hand tokens over through a bounded queue. The
producer sends the tokens of the source and then the end marker, and sends only while
the queue has room; the consumer waits until a token is there. A queue of capacity zero
holds nothing, so that a token passes only to a consumer that waits for it.

* `Channel.send?`, `Channel.ask?` and `Channel.receive?` are the steps of the two sides.
  Each is possible in some states only, and any order of possible steps is a schedule;
* `Channel.next` is a whole request of the consumer, under the schedule in which the
  producer runs only when it is waited for.
-/

namespace Reckoner

/-- The state of both sides. -/
structure Channel where
  /-- how many tokens the queue may hold -/
  capacity : Nat
  /-- the producer, until it has sent the end marker -/
  producer : Option Lexer
  /-- the tokens that were sent and not received, the oldest first -/
  queue : List Token
  /-- whether the consumer waits for a token -/
  waiting : Bool
  /-- whether the consumer has received the end marker -/
  finished : Bool
deriving DecidableEq, Repr

namespace Channel

/-- A channel for a source, before any step. -/
def ofString (caret : Caret) (capacity : Nat) (source : String) : Channel :=
  ⟨capacity, some (.ofString caret source), [], false, false⟩

/-! ## Steps -/

/-- Whether a token may be sent: there is a free place, or the consumer waits at an
    empty queue and takes the token at once. -/
def hasRoom (c : Channel) : Bool :=
  c.queue.length < c.capacity || (c.waiting && c.queue.isEmpty)

/-- The producer sends its next token. -/
def send? (c : Channel) : Option Channel :=
  match c.producer with
  | some l =>
    if c.hasRoom then
      let (t, l) := l.next
      some { c with queue := c.queue ++ [t], producer := if t.isFinish then none else some l }
    else none
  | none => none

/-- The consumer starts to wait for a token. -/
def ask? (c : Channel) : Option Channel :=
  if c.finished || c.waiting then none else some { c with waiting := true }

/-- The consumer receives the token that it waits for. -/
def receive? (c : Channel) : Option (Token × Channel) :=
  match c.queue with
  | t :: queue =>
    if c.waiting then some (t, { c with queue := queue, waiting := false, finished := t.isFinish })
    else none
  | [] => none

/-! ## Requests -/

/-- The next token, the end marker included. After the end marker every further request
    answers an end marker at offset zero, and nothing is received. -/
def next (c : Channel) : Token × Channel :=
  if c.finished then (.finish 0, c)
  else
    let c := { c with waiting := true }
    let c := if c.queue.isEmpty then c.send?.getD c else c
    match c.receive? with
    | some r => r
    | none => (.finish 0, { c with waiting := false, finished := true })

/-- The next token, or nothing once the end marker has been received. -/
def next? (c : Channel) : Option Token × Channel :=
  let (t, c) := c.next
  (if t.isFinish then none else some t, c)

/-- At most a number of tokens, as one request after the other brings them. -/
def take : Nat → Channel → List Token
  | 0, _ => []
  | n + 1, c =>
    match c.next? with
    | (some t, c) => t :: take n c
    | (none, _) => []

/-- A bound on the number of tokens that are still to come. -/
def bound (c : Channel) : Nat :=
  c.queue.length + (c.producer.map fun l => l.rest.length + 1).getD 0

/-- All tokens before the end marker. -/
def tokens (c : Channel) : List Token := c.take c.bound

end Channel

/-- The tokens of a source, received through a channel. -/
def stream (caret : Caret) (capacity : Nat) (source : String) : List Token :=
  (Channel.ofString caret capacity source).tokens

end Reckoner
