import Reckoner.Bindings
import Reckoner.Proofs.Text.Order
import Mathlib.Data.List.Induction
import Mathlib.Data.Set.Card

/-!
# Bindings as a map

Bindings change by values that names get and by names that are removed. Whatever the history
of such changes, a name has the value that it got last, unless it was removed since, and all
that bindings can be asked for tells of the same names and values.

* `Bindings.perform_snd`: every change is a list of writes, one after the other;
* `Bindings.get?_of_writes`: after any writes the last one of a name decides;
* `Bindings.Coheres`: what is asked for in different ways, which `Bindings.coheres` proves of
  all bindings;
* `Bindings.toList_congr`, `Bindings.beq_iff`: bindings of the same map are listed alike, and
  they are equal unless a value is no number;
* `Bindings.map_of_history`: all of it, after any history.
-/

namespace Reckoner

/-- A number is equal to itself, and only what is no number is not. -/
theorem Double.beq_self (x : Float) : (x == x) = !x.isNaN := by
  show x.toModel.unpack.beq x.toModel.unpack = !x.toModel.unpack.isNaN
  unfold Float.Model.UnpackedFloat.beq
  cases x.toModel.unpack with
  | notANumber => rfl
  | infinity s => cases s <;> rfl
  | zero s => rfl
  | finite s m e h =>
    have hexponent : compare e e = .eq := Std.ReflCmp.compare_self
    have hmantissa : compare m m = .eq := Std.ReflCmp.compare_self
    have hparts : (compare e e).then (compare m m) = .eq := by
      rw [hexponent, hmantissa]
      rfl
    cases s with
    | negative => exact congrArg (fun order => some (Ordering.swap order) == some .eq) hparts
    | positive => exact congrArg (fun order => some order == some .eq) hparts

namespace Bindings

/-! ## Histories of changes -/

/-- What changes bindings. -/
inductive Change
  | replace (name : String) (value : Float)
  | remove (name : String)
  | extend (pairs : List (String × Float))

/-- What a change answers. -/
inductive Answer
  | done
  /-- the value that the name had -/
  | old (value : Option Float)

/-- The answer to a change, with the bindings after it. -/
def perform (b : Bindings) : Change → Answer × Bindings
  | .replace name value => (.old (b.replace name value).1, (b.replace name value).2)
  | .remove name => (.old (b.remove name).1, (b.remove name).2)
  | .extend pairs => (.done, b.extend pairs)

/-- The bindings after a history of changes. -/
def after (b : Bindings) (history : List Change) : Bindings :=
  history.foldl (fun b c => (b.perform c).2) b

/-! ## Writes -/

/-- A name with the value that it gets, or without one if it is removed. -/
abbrev Write := String × Option Float

/-- The writes of a change. -/
def Change.writes : Change → List Write
  | .replace name value => [(name, some value)]
  | .remove name => [(name, none)]
  | .extend pairs => pairs.map fun (name, value) => (name, some value)

/-- The writes of a list of pairs and of the changes after it. -/
def writes (pairs : List (String × Float)) (history : List Change) : List Write :=
  (Change.extend pairs :: history).flatMap Change.writes

/-- Of the writes of a name, `(name, value)` is the last. -/
def IsLast (ws : List Write) (name : String) (value : Option Float) : Prop :=
  ∃ before after, ws = before ++ (name, value) :: after ∧ ∀ w ∈ after, w.1 ≠ name

/-- Bindings after a write. -/
def store (b : Bindings) (w : Write) : Bindings :=
  match w.2 with
  | some value => b.insert w.1 value
  | none => b.erase w.1

theorem get?_store (b : Bindings) (w : Write) (name : String) :
    (b.store w).get? name = if w.1 = name then w.2 else b.get? name := by
  obtain ⟨other, value⟩ := w
  cases value with
  | some value => exact get?_insert b other name value
  | none => exact get?_erase b other name

/-- A change is its writes, one after the other. -/
theorem perform_snd (b : Bindings) (c : Change) : (b.perform c).2 = c.writes.foldl store b := by
  cases c with
  | replace | remove => rfl
  | extend pairs =>
    rw [Change.writes, List.foldl_map]
    rfl

theorem after_eq (b : Bindings) (history : List Change) :
    b.after history = (history.flatMap Change.writes).foldl store b := by
  induction history generalizing b with
  | nil => rfl
  | cons c history ih =>
    rw [List.flatMap_cons, List.foldl_append, ← perform_snd]
    exact ih _

theorem after_ofList (pairs : List (String × Float)) (history : List Change) :
    (ofList pairs).after history = (writes pairs history).foldl store ∅ :=
  after_eq ∅ (.extend pairs :: history)

/-- A write behind all others decides for its name, and leaves the other names alone. -/
theorem isLast_append_singleton {ws : List Write} {w : Write} {name : String}
    {value : Option Float} : IsLast (ws ++ [w]) name value ↔
      if w.1 = name then w.2 = value else IsLast ws name value := by
  constructor
  · rintro ⟨before, after, heq, hafter⟩
    rcases List.eq_nil_or_concat' after with rfl | ⟨rest, u, rfl⟩
    · obtain ⟨-, hw⟩ := List.append_inj' heq rfl
      obtain rfl := List.singleton_inj.mp hw
      rw [if_pos rfl]
    · rw [← List.cons_append, ← List.append_assoc] at heq
      obtain ⟨hws, hw⟩ := List.append_inj' heq rfl
      obtain rfl := List.singleton_inj.mp hw
      obtain ⟨hrest, hname⟩ := List.forall_mem_append.mp hafter
      rw [if_neg (hname w List.mem_cons_self)]
      exact ⟨before, rest, hws, hrest⟩
  · intro h
    split_ifs at h with hname
    · obtain ⟨other, given⟩ := w
      obtain rfl : other = name := hname
      obtain rfl : given = value := h
      exact ⟨ws, [], rfl, List.forall_mem_nil _⟩
    · obtain ⟨before, after, rfl, hafter⟩ := h
      refine ⟨before, after ++ [w], by simp, ?_⟩
      exact List.forall_mem_append.mpr ⟨hafter, List.forall_mem_singleton.mpr hname⟩

/-- The last write of a name decides what it is bound to. -/
theorem get?_of_writes (ws : List Write) (name : String) (value : Float) :
    (ws.foldl store ∅).get? name = some value ↔ IsLast ws name (some value) := by
  induction ws using List.reverseRecOn with
  | nil =>
    rw [List.foldl_nil, get?_empty]
    constructor
    · intro h
      cases h
    · rintro ⟨before, after, heq, -⟩
      simp at heq
  | append_singleton ws w ih =>
    rw [List.foldl_append, List.foldl_cons, List.foldl_nil, get?_store, isLast_append_singleton]
    split_ifs
    · rfl
    · exact ih

/-! ## What bindings can be asked for -/

/-- All that bindings can be asked for tells the same as looking up their names. -/
structure Coheres (b : Bindings) : Prop where
  contains : ∀ name, b.contains name = (b.get? name).isSome
  isEmpty : b.isEmpty = true ↔ ∀ name, b.get? name = none
  size : {name | (b.get? name).isSome}.encard = b.size
  /-- the list has the bound names with their values and nothing else -/
  mem_toList : ∀ name value, (name, value) ∈ b.toList ↔ b.get? name = some value
  /-- each bound name stands in the list once -/
  count_toList : ∀ name, (b.get? name).isSome → (b.toList.map Prod.fst).count name = 1
  /-- the names ascend, byte by byte -/
  pairwise_toList : (b.toList.map fun entry => Text.bytes entry.1).Pairwise (· < ·)
  length_toList : b.toList.length = b.size

theorem pairwise_toList (b : Bindings) : b.toList.Pairwise fun x y => x.1 < y.1 := by
  have hordered : b.toList.Pairwise fun x y => compare x.1 y.1 = .lt :=
    Std.TreeMap.ordered_keys_toList
  exact hordered.imp fun h => compareOfLessAndEq_eq_lt.mp h

theorem nodup_names (b : Bindings) : (b.toList.map Prod.fst).Nodup :=
  List.pairwise_map.mpr (b.pairwise_toList.imp fun h => String.ne_of_lt h)

theorem mem_names {b : Bindings} {name : String} :
    name ∈ b.toList.map Prod.fst ↔ (b.get? name).isSome = true := by
  rw [List.mem_map, Option.isSome_iff_exists]
  constructor
  · rintro ⟨⟨other, value⟩, hmem, rfl⟩
    exact ⟨value, mem_toList.mp hmem⟩
  · rintro ⟨value, h⟩
    exact ⟨(name, value), mem_toList.mpr h, rfl⟩

theorem coheres (b : Bindings) : b.Coheres where
  contains := contains_eq_isSome_get? b
  isEmpty := by
    rw [isEmpty, Std.TreeMap.isEmpty_iff_forall_contains]
    refine forall_congr' fun name => ?_
    rw [← Option.not_isSome_iff_eq_none, ← contains_eq_isSome_get?, Bool.not_eq_true]
    rfl
  size := by
    have hnames : {name | (b.get? name).isSome = true} = (b.toList.map Prod.fst).toFinset := by
      ext name
      rw [Set.mem_ofPred_eq, Finset.mem_coe, List.mem_toFinset, mem_names]
    rw [hnames, Set.encard_coe_eq_coe_finsetCard, List.toFinset_card_of_nodup b.nodup_names,
      List.length_map, length_toList]
  mem_toList _ _ := mem_toList
  count_toList _ h := List.count_eq_one_of_mem b.nodup_names (mem_names.mpr h)
  pairwise_toList := List.pairwise_map.mpr (b.pairwise_toList.imp Text.bytes_lt)
  length_toList := length_toList b

/-! ## Bindings of the same map -/

section

variable {b b' : Bindings}

theorem toList_congr (h : ∀ name, b.get? name = b'.get? name) : b.toList = b'.toList :=
  (Std.TreeMap.Equiv.of_forall_constGet?_eq h).toList_eq

/-- Bindings of the same map are equal if all of their values are numbers. -/
theorem beq_iff (h : ∀ name, b.get? name = b'.get? name) :
    (b == b') = true ↔ ∀ name value, b.get? name = some value → value.isNaN = false := by
  have hsize : b.size = b'.size := by
    rw [← length_toList, ← length_toList, toList_congr h]
  have hentry {name : String} {value : Float} (hvalue : b.get? name = some value) :
      (b'.get? name == some value) = !value.isNaN := by
    rw [← h, hvalue, ← Double.beq_self]
    rfl
  show (b.size == b'.size &&
    b.toList.all fun (name, value) => b'.get? name == some value) = true ↔ _
  rw [hsize, beq_self_eq_true, Bool.true_and, List.all_eq_true, Prod.forall]
  refine forall₂_congr fun name value => ?_
  show ((name, value) ∈ b.toList → (b'.get? name == some value) = true) ↔ _
  rw [mem_toList]
  refine forall_congr' fun hvalue => ?_
  rw [hentry hvalue, Bool.not_eq_true']

end

/-! ## After any history -/

/-- Bindings made of pairs, after any history of changes: a name is bound to the value that it
    got last, unless it was removed since. Changes answer the value that the name had until
    then, and all else that bindings can be asked for tells the same. Two histories that end in
    the same map end in bindings that are listed alike, and that are equal unless a value is
    no number. -/
theorem map_of_history (pairs : List (String × Float)) (history : List Change) :
    let b := (ofList pairs).after history
    (∀ name value, b.get? name = some value ↔ IsLast (writes pairs history) name (some value)) ∧
    (∀ name value, (b.perform (.replace name value)).1 = .old (b.get? name)) ∧
    (∀ name, (b.perform (.remove name)).1 = .old (b.get? name)) ∧
    b.Coheres ∧
    ∀ pairs' history', let b' := (ofList pairs').after history'
      (∀ name, b.get? name = b'.get? name) → b.toList = b'.toList ∧
        ((b == b') = true ↔ ∀ name value, b.get? name = some value → value.isNaN = false) := by
  intro b
  refine ⟨?_, ?_, ?_, b.coheres, ?_⟩
  · intro name value
    rw [← get?_of_writes, ← after_ofList]
  · intro name value
    rfl
  · intro name
    rfl
  · intro pairs' history' b' h
    exact ⟨toList_congr h, beq_iff h⟩

/-- Two histories of the same map. In one of them a name is bound anew, one is removed and bound
    again, and one is removed for good. -/
theorem map_of_history_rebound :
    let b := (ofList [("😀", 2.5), ("ﬁ", 1)]).after
      [.replace "ﬁ" 0.5, .remove "😀", .extend [("a", 3), ("😀", -4)], .remove "a"]
    let b' := (ofList [("ﬁ", 0.5)]).after [.extend [("😀", -4)]]
    (∀ name, b.get? name = b'.get? name) ∧ b.toList = b'.toList ∧ (b == b') = true := by
  intro b b'
  have hget (name : String) : b'.get? name =
      if "😀" = name then some (-4) else if "ﬁ" = name then some 0.5 else none := by
    show (((∅ : Bindings).insert "ﬁ" 0.5).insert "😀" (-4)).get? name = _
    rw [get?_insert, get?_insert, get?_empty]
  have hsame (name : String) : b.get? name = b'.get? name := by
    rw [hget]
    show (((((((∅ : Bindings).insert "😀" 2.5).insert "ﬁ" 1).insert "ﬁ" 0.5).erase "😀").insert
      "a" 3 |>.insert "😀" (-4)).erase "a").get? name = _
    simp only [get?_insert, get?_erase, get?_empty]
    by_cases ha : "a" = name
    · subst ha
      rfl
    · rw [if_neg ha, if_neg ha]
      split_ifs <;> rfl
  obtain ⟨-, -, -, -, hother⟩ := map_of_history [("😀", 2.5), ("ﬁ", 1)]
    [.replace "ﬁ" 0.5, .remove "😀", .extend [("a", 3), ("😀", -4)], .remove "a"]
  obtain ⟨hlist, hequal⟩ := hother [("ﬁ", 0.5)] [.extend [("😀", -4)]] hsame
  refine ⟨hsame, hlist, hequal.mpr ?_⟩
  intro name value hvalue
  change b.get? name = some value at hvalue
  rw [hsame, hget] at hvalue
  split_ifs at hvalue
  · obtain rfl := Option.some.inj hvalue
    decide
  · obtain rfl := Option.some.inj hvalue
    decide

end Bindings

end Reckoner
