import Reckoner.Tree.Json
import Reckoner.Proofs.Json.RoundTrip

/-!
# Trees read back from JSON

A tree that is written is read back as it was, unless too many containers would be open at
once. Every node opens one, and its kind may open another one while the node is open.
What is read, in whatever form it was written, has opened no more than are allowed.

* `Tree.nesting`: how many containers are open at once;
* `Tree.ofJson?_toJson`: what is written is read back within the limit, and only there;
* `Tree.nestingFrom_of_ofJson?`: what is read keeps to the limit;
* `Tree.json_roundTrip`: both, for texts.
-/

namespace Reckoner

namespace Tree

/-! ## Nesting -/

/-- The number of containers that a kind opens: one if it has details. -/
def Kind.openings : Kind → Nat
  | literal _ | operator _ | function _ | invalid _ => 1
  | name | error => 0

/-- How many containers are open at once, for a tree with its root at a depth: the greatest
    depth of a node, counting what its kind opens. -/
def nestingFrom (depth : Nat) : Tree → Nat
  | absent => 0
  | node kind _ left right => max (depth + kind.openings)
    (max (left.nestingFrom (depth + 1)) (right.nestingFrom (depth + 1)))

/-- How many containers are open at once, with the root at the first depth. -/
def nesting (t : Tree) : Nat := t.nestingFrom 1

variable {t : Tree} {budget : Nat} {v : Json}

/-! ## What is written -/

theorem isWellFormed_ofString (s : String) : (Json.ofString s).IsWellFormed := .string _

theorem isWellFormed_ofFields {fields : List (String × Json)}
    (h : ∀ f ∈ fields, f.2.IsWellFormed) : (Json.ofFields fields).IsWellFormed := by
  refine .object fun f hf => ?_
  obtain ⟨g, hg, rfl⟩ := List.mem_map.mp hf
  exact h g hg

theorem isWellFormed_ofVariant (name : String) (h : v.IsWellFormed) :
    (Json.ofVariant name v).IsWellFormed :=
  isWellFormed_ofFields (by simpa using h)

theorem Kind.isWellFormed_toJson (kind : Kind) : kind.toJson.IsWellFormed := by
  cases kind with
  | literal | operator | function | invalid =>
    exact isWellFormed_ofVariant _ (isWellFormed_ofString _)
  | name | error => exact isWellFormed_ofString _

/-- A tree is written without numbers. -/
theorem isWellFormed_toJson (t : Tree) : t.toJson.IsWellFormed := by
  induction t with
  | absent => exact .null
  | node kind text left right ihl ihr =>
    refine isWellFormed_ofFields fun f hf => ?_
    simp only [List.mem_cons, List.not_mem_nil, or_false] at hf
    rcases hf with rfl | rfl | rfl | rfl
    · exact kind.isWellFormed_toJson
    · exact isWellFormed_ofString text
    · exact ihl
    · exact ihr

/-! ## Reading what is written -/

/-- A kind is read back if there is room for what it opens. -/
theorem Kind.ofJson?_toJson (kind : Kind) (budget : Nat) :
    ofJson? budget kind.toJson = if kind.openings ≤ budget then some kind else none := by
  cases kind with
  | name | error => rfl
  | literal format =>
    cases budget with
    | zero => rfl
    | succ budget => exact congrArg (Option.map literal) (Literal.Format.ofTag?_tag format)
  | operator op =>
    cases budget with
    | zero => rfl
    | succ budget => exact congrArg (Option.map operator) (Operator.ofTag?_tag op)
  | function f =>
    cases budget with
    | zero => rfl
    | succ budget => exact congrArg (Option.map function) (Function.ofTag?_tag f)
  | invalid defect =>
    cases budget with
    | zero => rfl
    | succ budget => exact congrArg (Option.map invalid) (Defect.ofTag?_tag defect)

theorem record?_node (kind text left right : Json) :
    (Json.ofFields [("kind", kind), ("text", text), ("left", left), ("right", right)]).record?
      ["kind", "text", "left", "right"] = some [some kind, some text, some left, some right] := by
  rfl

/-- The tree of a node, from what its fields say. -/
theorem ofJson?_node (kind text left right : Json) (budget : Nat) :
    ofJson? (budget + 1) (.ofFields [("kind", kind), ("text", text), ("left", left),
      ("right", right)]) = (do
        let kind ← Kind.ofJson? budget kind
        let text ← text.toText?
        let left ← optional? (ofJson? budget) (some left)
        let right ← optional? (ofJson? budget) (some right)
        return .node kind text left right) := by
  rw [ofJson?, record?_node]
  rfl

/-- A subtree is read back if there is room for what is open in it. An absent one needs
    none. -/
theorem optional?_toJson (t : Tree) {depth : Nat} (hdepth : 0 < depth) (budget : Nat) :
    optional? (ofJson? budget) (some t.toJson) =
      if t.nestingFrom depth < depth + budget then some t else none := by
  induction t generalizing depth budget with
  | absent =>
    rw [if_pos (show nestingFrom depth absent < depth + budget from Nat.lt_add_right _ hdepth)]
    rfl
  | node kind text left right ihl ihr =>
    show ofJson? budget (node kind text left right).toJson = _
    cases budget with
    | zero => rw [if_neg (by rw [nestingFrom]; omega), ofJson?]
    | succ budget =>
      have hroom : (node kind text left right).nestingFrom depth < depth + (budget + 1) ↔
          kind.openings ≤ budget ∧ left.nestingFrom (depth + 1) < depth + 1 + budget ∧
            right.nestingFrom (depth + 1) < depth + 1 + budget := by
        rw [nestingFrom]
        omega
      have hl := ihl (Nat.succ_pos depth) budget
      have hr := ihr (Nat.succ_pos depth) budget
      simp only [toJson, ofJson?_node, Kind.ofJson?_toJson, hl, hr, hroom]
      by_cases hk : kind.openings ≤ budget
      · by_cases hleft : left.nestingFrom (depth + 1) < depth + 1 + budget
        · by_cases hright : right.nestingFrom (depth + 1) < depth + 1 + budget
          · simp [hk, hleft, hright, Json.toText?, Json.ofString]
          · simp [hk, hleft, hright, Json.toText?, Json.ofString]
        · simp [hk, hleft, Json.toText?, Json.ofString]
      · simp [hk]

/-- A tree with a root is read back within the limit, and only there. -/
theorem ofJson?_toJson (ht : t ≠ .absent) (budget : Nat) :
    ofJson? budget t.toJson = if t.nesting ≤ budget then some t else none := by
  have hread := optional?_toJson t Nat.one_pos budget
  cases t with
  | absent => exact absurd rfl ht
  | node kind text left right =>
    simp only [Nat.add_comm 1 budget, Nat.lt_succ_iff] at hread
    exact hread

/-! ## Reading what was written in any form -/

theorem Kind.openings_of_ofTag? {tag : String} {kind : Kind} (h : ofTag? tag = some kind) :
    kind.openings = 0 := by
  unfold ofTag? at h
  split at h
  · obtain rfl := Option.some.inj h
    rfl
  · obtain rfl := Option.some.inj h
    rfl
  · cases h

theorem Kind.openings_le_one (kind : Kind) : kind.openings ≤ 1 := by
  cases kind with
  | literal | operator | function | invalid => exact Nat.le_refl 1
  | name | error => exact Nat.zero_le 1

/-- A kind opens no more than is allowed. -/
theorem Kind.openings_of_ofJson? {kind : Kind} (h : ofJson? budget v = some kind) :
    kind.openings ≤ budget := by
  unfold ofJson? at h
  cases htag : v.tag? budget with
  | some tag =>
    rw [htag] at h
    rw [openings_of_ofTag? h]
    exact Nat.zero_le _
  | none =>
    rw [htag] at h
    cases budget with
    | zero => cases h
    | succ budget => exact Nat.le_trans kind.openings_le_one (Nat.le_add_left 1 budget)

theorem nestingFrom_of_optional? {node? : Json → Option Tree} {o : Option Json} {bound depth : Nat}
    (hbound : 0 < bound) (hnode : ∀ v t, node? v = some t → t.nestingFrom depth < bound)
    (h : optional? node? o = some t) : t.nestingFrom depth < bound := by
  unfold optional? at h
  split at h
  · obtain rfl := Option.some.inj h
    exact hbound
  · obtain rfl := Option.some.inj h
    exact hbound
  · exact hnode _ _ h

/-- What is read is a tree with a root, and keeps to the limit. -/
theorem nestingFrom_of_ofJson? (depth : Nat) (h : ofJson? budget v = some t) :
    t ≠ .absent ∧ t.nestingFrom depth < depth + budget := by
  induction budget generalizing v t depth with
  | zero => cases h
  | succ budget ih =>
    rw [ofJson?] at h
    obtain ⟨fields, -, h⟩ := Option.bind_eq_some_iff.mp h
    split at h
    · rename_i kind text left right
      obtain ⟨kindJson, -, h⟩ := Option.bind_eq_some_iff.mp h
      obtain ⟨kind, hkind, h⟩ := Option.bind_eq_some_iff.mp h
      obtain ⟨textJson, -, h⟩ := Option.bind_eq_some_iff.mp h
      obtain ⟨text, -, h⟩ := Option.bind_eq_some_iff.mp h
      obtain ⟨l, hl, h⟩ := Option.bind_eq_some_iff.mp h
      obtain ⟨r, hr, h⟩ := Option.bind_eq_some_iff.mp h
      obtain rfl := Option.some.inj h
      have hkind := Kind.openings_of_ofJson? hkind
      have hsubtree {o : Option Json} {t : Tree} (ht : optional? (ofJson? budget) o = some t) :
          t.nestingFrom (depth + 1) < depth + 1 + budget :=
        nestingFrom_of_optional? (by omega) (fun v t hv => (ih (depth + 1) hv).2) ht
      have hleft := hsubtree hl
      have hright := hsubtree hr
      refine ⟨Tree.noConfusion, ?_⟩
      rw [nestingFrom]
      omega
    · cases h

theorem nesting_of_ofJson? (h : ofJson? budget v = some t) :
    t ≠ .absent ∧ t.nesting ≤ budget := by
  obtain ⟨hroot, hnesting⟩ := nestingFrom_of_ofJson? 1 h
  rw [nesting]
  exact ⟨hroot, by omega⟩

/-- An array is read as a node too, and an object as a kind without details. -/
example : ofJson? 2 (.array [.object [(some "Variable", .null)], .ofString "x", .null, .null]) =
    some (leaf .name "x") := rfl

/-! ## Texts -/

theorem ofJsonText?_toJsonText (ht : t ≠ .absent) : ofJsonText? t.toJsonText =
    if t.nesting ≤ Json.nestingLimit then some t else none := by
  rw [ofJsonText?, toJsonText, Json.read?_pretty t.isWellFormed_toJson]
  exact ofJson?_toJson ht Json.nestingLimit

/-- A tree with any kinds, texts and subtrees is written and read back as it was if its
    nesting is at most 127, and cannot be read back if it is greater. Whatever text is
    read, in whatever form, gives a tree that can be written and read back. -/
theorem json_roundTrip :
    (∀ t : Tree, t ≠ .absent → (t.nesting ≤ 127 → ofJsonText? t.toJsonText = some t) ∧
      (128 ≤ t.nesting → ofJsonText? t.toJsonText = none)) ∧
    ∀ (text : String) (t : Tree), ofJsonText? text = some t →
      t.nesting ≤ 127 ∧ ofJsonText? t.toJsonText = some t := by
  have hread (t : Tree) (ht : t ≠ .absent) :
      ofJsonText? t.toJsonText = if t.nesting ≤ 127 then some t else none :=
    ofJsonText?_toJsonText ht
  refine ⟨fun t ht => ⟨fun hle => ?_, fun hge => ?_⟩, fun text t h => ?_⟩
  · rw [hread t ht, if_pos hle]
  · rw [hread t ht, if_neg (Nat.not_le.mpr hge)]
  · obtain ⟨v, -, hv⟩ := Option.bind_eq_some_iff.mp h
    obtain ⟨hroot, hle⟩ := nesting_of_ofJson? hv
    have hle : t.nesting ≤ 127 := hle
    exact ⟨hle, by rw [hread t hroot, if_pos hle]⟩

/-- Functions around a name reach the limit with 126 of them. -/
theorem json_roundTrip_tower :
    let tower (n : Nat) := Nat.repeat (call .sqrt) n (leaf .name "\"\\\n")
    ((tower 126).nesting ≤ 127 ∧ ofJsonText? (tower 126).toJsonText = some (tower 126)) ∧
      128 ≤ (tower 127).nesting ∧ ofJsonText? (tower 127).toJsonText = none := by
  intro tower
  have hroot (n : Nat) : tower (n + 1) ≠ .absent := Tree.noConfusion
  have hle : (tower 126).nesting ≤ 127 := by decide +kernel
  have hge : 128 ≤ (tower 127).nesting := by decide +kernel
  exact ⟨⟨hle, (json_roundTrip.1 (tower 126) (hroot 125)).1 hle⟩,
    hge, (json_roundTrip.1 (tower 127) (hroot 126)).2 hge⟩

end Tree

end Reckoner
