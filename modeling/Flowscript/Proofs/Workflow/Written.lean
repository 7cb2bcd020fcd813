/-
Workflows that are read back from the values that they are written as.

A value of each type is read back from its JSON value, straight from a text and among values that
were read before.  For a configuration this asks for `Config.Proper`, which is what a configuration
that was read satisfies.  The other side of it is `Value.Within`: the values that are written do not
nest too deep to be read, and their integers fit.

* `Config.ofMembers_members`, `Node.read_toJson`, `Edge.read_toJson`, `Options.read_toJson` — the
  parts of a workflow and of a request;
* `Workflow.read_toJson`, `Request.read_toJson` — the whole;
* `Workflow.within_members` — the depth and the integers of what is written.
-/
import Flowscript.Proofs.Json.Record
import Flowscript.Workflow.Write

namespace Flowscript

open Json Source

/-! ### Plain data -/

@[simp] theorem text_string (s : String) : (Value.string s).source.text = .ok s := rfl

@[simp] theorem boolean_bool (b : Bool) : (Value.bool b).source.boolean = .ok b := rfl

@[simp] theorem double_ofReal (x : Float) : (Value.ofReal x).source.double = .ok x := rfl

theorem count_ofNat {n : Nat} (h : n < 4294967296) : (Value.ofNat n).source.count = .ok n :=
  count_natCast h

@[simp] theorem optional_text (o : Option String) :
    (Value.ofOption .string o).source.optional text = .ok o :=
  optional_ofOption fun _ _ => ⟨nofun, rfl⟩

@[simp] theorem optional_double (o : Option Float) :
    (Value.ofOption .ofReal o).source.optional double = .ok o :=
  optional_ofOption fun _ _ => ⟨nofun, rfl⟩

theorem optional_count {o : Option Nat} (h : ∀ n ∈ o, n < 4294967296) :
    (Value.ofOption .ofNat o).source.optional count = .ok o :=
  optional_ofOption fun n hn => ⟨nofun, count_ofNat (h n hn)⟩

@[simp] theorem list_text (l : List String) :
    (Value.array (l.map .string)).source.list text = .ok l :=
  list_map fun _ _ => rfl

@[simp] theorem lookup_triggerType (t : TriggerType) : lookup TriggerType.names t.name = .ok t := by
  cases t <;> rfl

@[simp] theorem lookup_merge (m : Merge) : lookup Merge.names m.name = .ok m := by
  cases m <;> rfl

@[simp] theorem lookup_teamStrategy (s : TeamStrategy) :
    lookup TeamStrategy.names s.name = .ok s := by
  cases s <;> rfl

theorem lookup_kind (k : Kind) : lookup Kind.names k.name = .ok k := by
  cases k <;> rfl

theorem lookup_branch (b : Bool) : lookup branchNames (branchName b) = .ok b := by
  cases b <;> rfl

/-! ### Configurations -/

/-- What is known of a configuration that was read: counts are below `2^32`, arguments are ordered
by name, and an input schema is in normal form, not null, and nests at most 123 deep. -/
def Config.Proper : Config → Prop
  | .trigger c => ∀ v ∈ c.inputSchema, v ≠ .null ∧ v.normal = v ∧ v.Within 123
  | .agent c => ∀ n ∈ c.maxTokens, n < 4294967296
  | .toolCall c => Ordered c.arguments
  | .condition _ => True
  | .parallel _ => True
  | .feedbackLoop c => c.maxIterations < 4294967296
  | .retrieval c => ∀ n ∈ c.topK, n < 4294967296
  | .team c => ∀ n ∈ c.maxRounds, n < 4294967296

section Records

attribute [local simp] Record.set Record.field? pure Except.pure Functor.map Except.map

theorem Position.read_toJson (p : Position) : Position.read p.toJson.source = .ok p := by
  have hnames : Position.record.Covers Position.record.names := by decide
  rw [Position.toJson, Position.read, Record.read_source_object hnames rfl]
  simp [Position.record]

theorem OutputField.read_toJson (f : OutputField) :
    OutputField.record.read .buffered "OutputField" f.toJson.source = .ok f := by
  have hnames : OutputField.record.Covers OutputField.record.names := by decide
  rw [OutputField.toJson, Record.read_source_object hnames rfl]
  simp [OutputField.record]

@[simp] theorem OutputField.readList_listToJson (o : Option (List OutputField)) :
    OutputField.readList (OutputField.listToJson o).source = .ok o :=
  optional_ofOption fun _ _ => ⟨nofun, list_map fun f _ => f.read_toJson⟩

theorem Member.read_toJson (m : Member) :
    Member.record.read .buffered "TeamMember" m.toJson.source = .ok m := by
  have hnames : Member.record.Covers Member.record.names := by decide
  rw [Member.toJson, Record.read_source_object hnames rfl]
  simp [Member.record]

theorem optional_inputSchema {o : Option Value}
    (h : ∀ v ∈ o, v ≠ .null ∧ v.normal = v ∧ v.Within 123) :
    (o.getD .null).source.optional anything = .ok o := by
  cases o with
  | none => rfl
  | some v =>
    obtain ⟨hnull, hnormal, hdepth, -⟩ := h v rfl
    rw [Option.getD_some, optional_source _ hnull, anything_of_normal hnormal (by omega)]
    rfl

/-- The value stays a variable here, so that nothing computes with the bound of a count. -/
theorem FeedbackLoop.foldlM_set {v : Value} {n : Nat} (h : v.source.count = .ok n) (s : String) :
    [("maxIterations", v), ("stopCondition", .string s)].foldlM FeedbackLoop.record.set
      FeedbackLoop.record.blank = .ok ⟨n, s⟩ := by
  simp [FeedbackLoop.record, h]

/-- A configuration is read back from its fields. -/
theorem Config.ofMembers_members {c : Config} (h : c.Proper) :
    Config.ofMembers c.kind (memberSources c.members) = .ok c := by
  cases c with
  | trigger c =>
    have hnames : Trigger.record.Covers Trigger.record.names := by decide
    rw [kind, ofMembers, Record.ofMembers_memberSources hnames rfl]
    simp [members, Trigger.record, choice_string, optional_inputSchema h]
  | agent c =>
    have hnames : Agent.record.Covers Agent.record.names := by decide
    rw [kind, ofMembers, Record.ofMembers_memberSources hnames rfl]
    simp [members, Agent.record, optional_count h]
  | toolCall c =>
    have hnames : ToolCall.record.Covers ToolCall.record.names := by decide
    rw [kind, ofMembers, Record.ofMembers_memberSources hnames rfl]
    simp [members, ToolCall.record, textMap_of_ordered h]
  | condition c =>
    have hnames : Condition.record.Covers Condition.record.names := by decide
    rw [kind, ofMembers, Record.ofMembers_memberSources hnames rfl]
    simp [members, Condition.record]
  | parallel c =>
    have hnames : Parallel.record.Covers Parallel.record.names := by decide
    rw [kind, ofMembers, Record.ofMembers_memberSources hnames rfl]
    simp [members, Parallel.record, choice_string]
  | feedbackLoop c =>
    have hnames : FeedbackLoop.record.Covers FeedbackLoop.record.names := by decide
    rw [kind, ofMembers, Record.ofMembers_memberSources hnames rfl, members,
      FeedbackLoop.foldlM_set (count_ofNat h)]
    rfl
  | retrieval c =>
    have hnames : Retrieval.record.Covers Retrieval.record.names := by decide
    rw [kind, ofMembers, Record.ofMembers_memberSources hnames rfl]
    simp [members, Retrieval.record, optional_count h]
  | team c =>
    have hnames : Team.record.Covers Team.record.names := by decide
    have hmembers := list_map fun (m : Member) (_ : m ∈ c.members) => m.read_toJson
    rw [kind, ofMembers, Record.ofMembers_memberSources hnames rfl]
    simp [members, Team.record, choice_string, optional_count h, hmembers]

theorem Edge.read_toJson (mode : Mode) (e : Edge) : Edge.read mode e.toJson.source = .ok e := by
  have hnames : (Edge.record mode).Covers (Edge.record .streamed).names := by cases mode <;> decide
  have hbranch : (Value.ofOption (fun b => .string (branchName b)) e.branch).source.optional
      (choice mode branchNames) = .ok e.branch :=
    optional_ofOption fun b _ => ⟨nofun, (choice_string _ _ _).trans (lookup_branch b)⟩
  rw [Edge.toJson, Edge.read, Record.read_source_object hnames rfl]
  simp [Edge.record, hbranch]

theorem Options.read_toJson (o : Options) : Options.read o.toJson.source = .ok o := by
  have hnames : Options.record.Covers Options.record.names := by decide
  rw [Options.toJson, Options.read, Record.read_source_object hnames rfl]
  simp [Options.record]

end Records

/-! ### Depth and integers of what is written -/

theorem within_ofNat {n : Nat} (h : n < 4294967296) {room : Nat} : (Value.ofNat n).Within room :=
  Value.within_number ⟨by omega, by omega⟩

@[simp] theorem within_ofReal (x : Float) {room : Nat} : (Value.ofReal x).Within room :=
  Value.within_number trivial

theorem within_ofOption {α : Type} {write : α → Value} {o : Option α} {room : Nat}
    (h : ∀ a ∈ o, (write a).Within room) : (Value.ofOption write o).Within room := by
  cases o with
  | none => exact Value.within_null
  | some a => exact h a rfl

@[simp] theorem within_ofOption_string (o : Option String) {room : Nat} :
    (Value.ofOption .string o).Within room :=
  within_ofOption fun s _ => Value.within_string s

theorem within_map {α : Type} {write : α → Value} {l : List α} {room : Nat}
    (h : ∀ a ∈ l, (write a).Within room) : (Value.array (l.map write)).Within (room + 1) :=
  Value.within_array.mpr (List.forall_mem_map.mpr h)

theorem OutputField.within_listToJson (o : Option (List OutputField)) :
    (OutputField.listToJson o).Within 123 :=
  within_ofOption fun _ _ => within_map fun f _ => Value.within_object.mpr (by simp)

theorem Config.within_members {c : Config} (h : c.Proper) : ∀ m ∈ c.members, m.2.Within 123 := by
  have hfields := OutputField.within_listToJson
  cases c with
  | trigger c =>
    have hschema : (c.inputSchema.getD .null).Within 123 := by
      cases hv : c.inputSchema with
      | none => exact Value.within_null
      | some v => exact (h v hv).2.2
    simp [members, hschema]
  | agent c =>
    have htools : (Value.array (c.tools.map .string)).Within 123 :=
      within_map fun s _ => Value.within_string s
    have htemperature : (Value.ofOption .ofReal c.temperature).Within 123 :=
      within_ofOption fun x _ => within_ofReal x
    have hmaxTokens : (Value.ofOption .ofNat c.maxTokens).Within 123 :=
      within_ofOption fun n hn => within_ofNat (h n hn)
    simp [members, htools, htemperature, hmaxTokens, hfields]
  | toolCall c =>
    have harguments : (Value.object (c.arguments.map fun m => (m.1, .string m.2))).Within 123 :=
      Value.within_object.mpr (List.forall_mem_map.mpr fun m _ => Value.within_string m.2)
    simp [members, harguments, hfields]
  | condition c => simp [members]
  | parallel c => simp [members]
  | feedbackLoop c =>
    have hmaxIterations : (Value.ofNat c.maxIterations).Within 123 := within_ofNat h
    simp [members, hmaxIterations]
  | retrieval c =>
    have htopK : (Value.ofOption .ofNat c.topK).Within 123 :=
      within_ofOption fun n hn => within_ofNat (h n hn)
    simp [members, htopK, hfields]
  | team c =>
    have hmembers : (Value.array (c.members.map Member.toJson)).Within 123 :=
      within_map fun m _ => Value.within_object.mpr (by simp)
    have hmaxRounds : (Value.ofOption .ofNat c.maxRounds).Within 123 :=
      within_ofOption fun n hn => within_ofNat (h n hn)
    simp [members, hmembers, hmaxRounds, hfields]

/-! ### Nodes -/

namespace Node

/-- The members of a node beside its kind. -/
def members (n : Node) : List (String × Value) :=
  ("id", .string n.id) :: (n.position.toList.map fun p => ("position", p.toJson)) ++
    [("data", .object (("label", Value.ofOption .string n.label) :: n.config.members))]

theorem toJson_eq (n : Node) :
    n.toJson = .object (("kind", .string n.kind.name) :: n.members) := rfl

theorem within_members {n : Node} (h : n.config.Proper) : ∀ m ∈ n.members, m.2.Within 124 := by
  have hdata : (Value.object (("label", Value.ofOption .string n.label) :: n.config.members)).Within
      124 := by
    refine Value.within_object.mpr (List.forall_mem_cons.mpr ⟨?_, Config.within_members h⟩)
    exact within_ofOption_string n.label
  have hposition : ∀ p : Position, p.toJson.Within 124 :=
    fun p => Value.within_object.mpr (by simp)
  cases hp : n.position <;> simp [members, hp, hdata, hposition]

theorem splitLabel_memberSources {ms : List (String × Value)} (h : "label" ∉ ms.map (·.1))
    (label : Option (Option String)) :
    splitLabel label (memberSources ms) = .ok (label, memberSources ms) := by
  induction ms with
  | nil => rfl
  | cons m ms ih =>
    rw [List.map_cons, List.mem_cons, not_or] at h
    show (if m.1 = "label" then _ else _) = _
    rw [if_neg (Ne.symm h.1), ih h.2]
    rfl

theorem label_notMem_members (c : Config) : "label" ∉ c.members.map (·.1) := by
  cases c <;> simp [Config.members]

theorem readData_members {c : Config} (h : c.Proper) (label : Option String) :
    readData c.kind (Value.object (("label", Value.ofOption .string label) :: c.members)).source =
      .ok (label, c) := by
  have hsplit : splitLabel none
      (memberSources (("label", Value.ofOption .string label) :: c.members)) =
        .ok (some label, memberSources c.members) := by
    show ((Value.ofOption .string label).source.optional text >>= fun label =>
      splitLabel (some label) (memberSources c.members)) = _
    rw [optional_text]
    exact splitLabel_memberSources (label_notMem_members c) _
  rw [Value.source, readData, hsplit]
  exact bind_eq_ok.mpr ⟨_, rfl, bind_eq_ok.mpr ⟨c, Config.ofMembers_members h, rfl⟩⟩

theorem splitKind_memberSources {mode : Mode} {room : Nat} {ms : List (String × Value)}
    (h : "kind" ∉ ms.map (·.1)) (hroom : ∀ m ∈ ms, m.2.Within room) (kind : Option Kind) :
    splitKind mode room kind (memberSources ms) = .ok (kind, memberSources ms) := by
  induction ms with
  | nil => rfl
  | cons m ms ih =>
    rw [List.map_cons, List.mem_cons, not_or] at h
    show (if m.1 = "kind" then _ else _) = _
    rw [if_neg (Ne.symm h.1), read_source (hroom m List.mem_cons_self).1,
      ih h.2 fun m hm => hroom m (List.mem_cons_of_mem _ hm)]
    rfl

theorem read_members {n : Node} (h : n.config.Proper) :
    (record n.kind).read .buffered "NodeBase" (Value.object n.members).source = .ok n := by
  obtain ⟨id, position, label, config⟩ := n
  have hdata : readData config.kind (Value.object (("label", Value.ofOption .string label) ::
      config.members)).source = .ok (label, config) := readData_members h label
  show (record config.kind).read .buffered "NodeBase" _ = _
  cases position with
  | none =>
    have hnames : (record config.kind).Covers ["id", "data"] := by cases config.kind <;> decide
    rw [Record.read_source_object hnames rfl]
    simp [members, record, Record.set, Record.field?, hdata, pure, Except.pure]
  | some p =>
    have hnames : (record config.kind).Covers ["id", "position", "data"] := by
      cases config.kind <;> decide
    have hnull : p.toJson ≠ .null := nofun
    have hposition : p.toJson.source.optional Position.read = .ok (some p) := by
      rw [optional_source _ hnull, p.read_toJson]
      rfl
    rw [Record.read_source_object hnames rfl]
    simp [members, record, Record.set, Record.field?, hposition, hdata, pure, Except.pure]

/-- A node is read back from its value. -/
theorem read_toJson {n : Node} (h : n.config.Proper) (mode : Mode) :
    Node.read mode 124 n.toJson.source = .ok n := by
  have hkind : "kind" ∉ n.members.map (·.1) := by
    cases hp : n.position <;> simp [members, hp]
  have hsplit : splitKind mode 124 none
      (memberSources (("kind", .string n.kind.name) :: n.members)) =
        .ok (some n.kind, memberSources n.members) := by
    show ((Value.string n.kind.name).source.tag mode Kind.names >>= fun kind =>
      splitKind mode 124 (some kind) (memberSources n.members)) = _
    rw [Value.source, tag, lookup_kind]
    exact splitKind_memberSources hkind (within_members h) _
  rw [toJson_eq, Value.source, Node.read, hsplit]
  exact read_members h

end Node

/-! ### Workflows and requests -/

/-- What is known of a workflow that was read. -/
def Workflow.Proper (w : Workflow) : Prop := ∀ n ∈ w.nodes, n.config.Proper

namespace Workflow

theorem within_members {w : Workflow} (h : w.Proper) : ∀ m ∈ w.members, m.2.Within 126 := by
  have hnodes : (Value.array (w.nodes.map Node.toJson)).Within 126 := by
    refine within_map fun n hn => Value.within_object.mpr (List.forall_mem_cons.mpr ⟨?_, ?_⟩)
    · exact Value.within_string _
    · exact Node.within_members (h n hn)
  have hedges : (Value.array (w.edges.map Edge.toJson)).Within 126 := by
    refine within_map fun e _ => Value.within_object.mpr ?_
    have hbranch : (Value.ofOption (fun b => .string (branchName b)) e.branch).Within 124 :=
      within_ofOption fun b _ => Value.within_string _
    simp [hbranch]
  simp [members, hnodes, hedges]

theorem ofMembers_members {w : Workflow} (h : w.Proper) (mode : Mode) :
    (record mode).ofMembers (memberSources w.members) = .ok w := by
  have hnames : (record mode).Covers (record .streamed).names := by cases mode <;> decide
  have hnodes := list_map fun n hn => Node.read_toJson (h n hn) mode
  have hedges := list_map fun (e : Edge) (_ : e ∈ w.edges) => e.read_toJson mode
  rw [Record.ofMembers_memberSources hnames rfl]
  simp [members, record, Record.set, Record.field?, hnodes, hedges, pure, Except.pure]

/-- A workflow is read back from its value. -/
theorem read_toJson {w : Workflow} (h : w.Proper) (mode : Mode) :
    (record mode).read mode "Workflow" w.toJson.source = .ok w := by
  rw [toJson, Value.source, Record.read_object, ofMembers_members h]

end Workflow

namespace Request

theorem splitOptions_memberSources {ms : List (String × Value)} (h : "options" ∉ ms.map (·.1))
    (hroom : ∀ m ∈ ms, m.2.Within 126) (o : Options) :
    splitOptions none (memberSources (ms ++ [("options", o.toJson)])) =
      .ok (some o, memberSources ms) := by
  induction ms with
  | nil =>
    show (Options.read o.toJson.source >>= fun o => splitOptions (some o) []) = _
    rw [o.read_toJson]
    rfl
  | cons m ms ih =>
    rw [List.map_cons, List.mem_cons, not_or] at h
    have hrest := ih h.2 fun m hm => hroom m (List.mem_cons_of_mem _ hm)
    show (if m.1 = "options" then _ else _) = _
    rw [if_neg (Ne.symm h.1), read_source (hroom m List.mem_cons_self).1]
    exact bind_eq_ok.mpr ⟨_, rfl, bind_eq_ok.mpr ⟨_, hrest, rfl⟩⟩

/-- A request is read back from its value. -/
theorem read_toJson {r : Request} (h : r.workflow.Proper) : read r.toJson.source = .ok r := by
  have hoptions : "options" ∉ r.workflow.members.map (·.1) := by simp [Workflow.members]
  rw [toJson, Value.source, read,
    splitOptions_memberSources hoptions (Workflow.within_members h) r.options, ok_bind]
  show ((Workflow.record .buffered).ofMembers (memberSources r.workflow.members) >>= fun w =>
    .ok (Request.mk w r.options)) = _
  rw [Workflow.ofMembers_members h]
  rfl

end Request

end Flowscript
