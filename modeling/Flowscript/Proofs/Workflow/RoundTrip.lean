/-
Workflows and requests survive being written and read again.

Whatever the text was that a workflow was read from, with its fields in another order, under their
second names, left out or in arrays, the workflow that came out of it is `Proper`, and so it is read
back from its own text.  Only its doubles have to be ones that are read as they are written.

* `Config.proper_of_ofMembers`, `Node.proper_of_read`, `Workflow.proper_of_parse`,
  `Request.proper_of_parse` — what is known of a workflow that was read;
* `parse_render` — reading undoes writing, for workflows and for requests.
-/
import Flowscript.Proofs.Json.Scan
import Flowscript.Proofs.Workflow.Written

namespace Flowscript

open Json Source

/-! ### Configurations that were read -/

namespace Config

theorem keeps_trigger :
    Trigger.record.Keeps (fun c => (Config.trigger c).Proper) (ReadWithin 123) := by
  refine ⟨fun _ h => absurd h (Option.not_mem_none _), ?_⟩
  simp only [Trigger.record, List.forall_mem_cons]
  refine ⟨?_, ?_, ?_, List.forall_mem_nil _⟩
  · exact Record.put_keeps fun _ _ _ hc _ _ => hc
  · exact Record.put_keeps fun _ _ _ hc _ _ => hc
  · refine Record.put_keeps fun _ _ _ _ hs hread v hv => ?_
    obtain ⟨hnull, hread⟩ := of_optional hread hv
    exact of_anything hread hs hnull

theorem keeps_agent : Agent.record.Keeps (fun c => (Config.agent c).Proper) (ReadWithin 123) := by
  refine ⟨fun _ h => absurd h (Option.not_mem_none _), ?_⟩
  simp only [Agent.record, List.forall_mem_cons]
  refine ⟨?_, ?_, ?_, ?_, ?_, ?_, ?_, List.forall_mem_nil _⟩
  · exact Record.put_keeps fun _ _ _ hc _ _ => hc
  · exact Record.put_keeps fun _ _ _ hc _ _ => hc
  · exact Record.put_keeps fun _ _ _ hc _ _ => hc
  · exact Record.put_keeps fun _ _ _ hc _ _ => hc
  · exact Record.put_keeps fun _ _ _ hc _ _ => hc
  · exact Record.put_keeps fun _ _ _ _ _ hread n hn => count_lt (of_optional hread hn).2
  · exact Record.put_keeps fun _ _ _ hc _ _ => hc

theorem keeps_toolCall :
    ToolCall.record.Keeps (fun c => (Config.toolCall c).Proper) (ReadWithin 123) := by
  refine ⟨List.Pairwise.nil, ?_⟩
  simp only [ToolCall.record, List.forall_mem_cons]
  refine ⟨?_, ?_, ?_, List.forall_mem_nil _⟩
  · exact Record.put_keeps fun _ _ _ hc _ _ => hc
  · exact Record.put_keeps fun _ _ _ _ _ hread => ordered_of_textMap hread
  · exact Record.put_keeps fun _ _ _ hc _ _ => hc

theorem keeps_feedbackLoop :
    FeedbackLoop.record.Keeps (fun c => (Config.feedbackLoop c).Proper) (ReadWithin 123) := by
  refine ⟨show 0 < 4294967296 by decide, ?_⟩
  simp only [FeedbackLoop.record, List.forall_mem_cons]
  refine ⟨?_, ?_, List.forall_mem_nil _⟩
  · exact Record.put_keeps fun _ _ _ _ _ hread => count_lt hread
  · exact Record.put_keeps fun _ _ _ hc _ _ => hc

theorem keeps_retrieval :
    Retrieval.record.Keeps (fun c => (Config.retrieval c).Proper) (ReadWithin 123) := by
  refine ⟨fun _ h => absurd h (Option.not_mem_none _), ?_⟩
  simp only [Retrieval.record, List.forall_mem_cons]
  refine ⟨?_, ?_, ?_, ?_, List.forall_mem_nil _⟩
  · exact Record.put_keeps fun _ _ _ hc _ _ => hc
  · exact Record.put_keeps fun _ _ _ hc _ _ => hc
  · exact Record.put_keeps fun _ _ _ _ _ hread n hn => count_lt (of_optional hread hn).2
  · exact Record.put_keeps fun _ _ _ hc _ _ => hc

theorem keeps_team : Team.record.Keeps (fun c => (Config.team c).Proper) (ReadWithin 123) := by
  refine ⟨fun _ h => absurd h (Option.not_mem_none _), ?_⟩
  simp only [Team.record, List.forall_mem_cons]
  refine ⟨?_, ?_, ?_, ?_, ?_, List.forall_mem_nil _⟩
  · exact Record.put_keeps fun _ _ _ hc _ _ => hc
  · exact Record.put_keeps fun _ _ _ hc _ _ => hc
  · exact Record.put_keeps fun _ _ _ hc _ _ => hc
  · exact Record.put_keeps fun _ _ _ _ _ hread n hn => count_lt (of_optional hread hn).2
  · exact Record.put_keeps fun _ _ _ hc _ _ => hc

/-- A configuration of values that were read before is proper. -/
theorem proper_of_ofMembers {kind : Kind} {members : List (Source × Source)}
    (hmembers : ∀ m ∈ members, m.2.ReadWithin 123) {c : Config}
    (h : ofMembers kind members = .ok c) : c.Proper := by
  cases kind with
  | trigger =>
    obtain ⟨c, hc, rfl⟩ := map_eq_ok.mp h
    exact keeps_trigger.ofMembers hmembers hc
  | agent =>
    obtain ⟨c, hc, rfl⟩ := map_eq_ok.mp h
    exact keeps_agent.ofMembers hmembers hc
  | toolCall =>
    obtain ⟨c, hc, rfl⟩ := map_eq_ok.mp h
    exact keeps_toolCall.ofMembers hmembers hc
  | condition =>
    obtain ⟨c, -, rfl⟩ := map_eq_ok.mp h
    exact trivial
  | parallel =>
    obtain ⟨c, -, rfl⟩ := map_eq_ok.mp h
    exact trivial
  | feedbackLoop =>
    obtain ⟨c, hc, rfl⟩ := map_eq_ok.mp h
    exact keeps_feedbackLoop.ofMembers hmembers hc
  | retrieval =>
    obtain ⟨c, hc, rfl⟩ := map_eq_ok.mp h
    exact keeps_retrieval.ofMembers hmembers hc
  | team =>
    obtain ⟨c, hc, rfl⟩ := map_eq_ok.mp h
    exact keeps_team.ofMembers hmembers hc

end Config

/-! ### Nodes that were read -/

namespace Node

theorem mem_of_splitLabel {label label' : Option (Option String)}
    {members others : List (Source × Source)}
    (h : splitLabel label members = .ok (label', others)) : others ⊆ members := by
  induction members generalizing label label' others with
  | nil =>
    cases h
    exact List.Subset.refl _
  | cons m members ih =>
    obtain ⟨key, -, h⟩ := bind_eq_ok.mp h
    split at h
    · split at h
      · cases h
      · obtain ⟨l, -, h⟩ := bind_eq_ok.mp h
        exact List.subset_cons_of_subset _ (ih h)
    · obtain ⟨⟨l, rest⟩, hrest, h⟩ := bind_eq_ok.mp h
      cases h
      exact List.cons_subset_cons _ (ih hrest)

theorem proper_of_readData {kind : Kind} {s : Source} (hs : s.ReadWithin 124)
    {label : Option String} {c : Config} (h : readData kind s = .ok (label, c)) : c.Proper := by
  obtain ⟨v, rfl, hv⟩ := hs
  cases v with
  | null => cases h
  | bool b => cases h
  | number n => cases h
  | string t => cases h
  | array items => cases h
  | object ms =>
    obtain ⟨⟨l, others⟩, hsplit, h⟩ := bind_eq_ok.mp h
    obtain ⟨c', hc', h⟩ := bind_eq_ok.mp h
    cases h
    refine Config.proper_of_ofMembers (fun m hm => ?_) hc'
    have hmem := mem_of_splitLabel hsplit hm
    rw [memberSources_eq_map] at hmem
    obtain ⟨m', hm', rfl⟩ := List.mem_map.mp hmem
    exact ⟨m'.2, rfl, Value.within_object.mp hv m' hm'⟩

theorem keeps_record (kind : Kind) :
    (record kind).Keeps (fun n => n.config.Proper) (ReadWithin 124) := by
  refine ⟨fun _ h => absurd h (Option.not_mem_none _), ?_⟩
  simp only [record, List.forall_mem_cons]
  refine ⟨?_, ?_, ?_, List.forall_mem_nil _⟩
  · exact Record.put_keeps fun _ _ _ hn _ _ => hn
  · exact Record.put_keeps fun _ _ _ hn _ _ => hn
  · intro n s b _ hs h
    obtain ⟨⟨label, c⟩, hdata, h⟩ := bind_eq_ok.mp h
    cases h
    exact proper_of_readData hs hdata

theorem readWithin_of_splitKind {mode : Mode} {room : Nat} {kind kind' : Option Kind}
    {members others : List (Source × Source)} (hmembers : ∀ m ∈ members, m.2.Fits)
    (h : splitKind mode room kind members = .ok (kind', others)) :
    ∀ m ∈ others, m.2.ReadWithin room := by
  induction members generalizing kind kind' others with
  | nil =>
    cases h
    exact List.forall_mem_nil _
  | cons m members ih =>
    obtain ⟨hm, hmembers⟩ := List.forall_mem_cons.mp hmembers
    obtain ⟨key, -, h⟩ := bind_eq_ok.mp h
    split at h
    · split at h
      · cases h
      · obtain ⟨k, -, h⟩ := bind_eq_ok.mp h
        exact ih hmembers h
    · obtain ⟨v, hv, h⟩ := bind_eq_ok.mp h
      obtain ⟨⟨k, rest⟩, hrest, h⟩ := bind_eq_ok.mp h
      cases h
      refine List.forall_mem_cons.mpr ⟨⟨v, rfl, ?_⟩, ih hmembers hrest⟩
      exact within_of_read hm (orFlaw_eq_ok hv)

/-- The configuration of a node that was read is proper. -/
theorem proper_of_read {mode : Mode} {s : Source} (hs : s.Fits) {n : Node}
    (h : Node.read mode 124 s = .ok n) : n.config.Proper := by
  rw [Node.read.eq_def] at h
  split at h
  · obtain ⟨⟨kind, others⟩, hsplit, h⟩ := bind_eq_ok.mp h
    obtain ⟨_, -, h⟩ := bind_eq_ok.mp h
    have hothers := readWithin_of_splitKind (fits_object.mp hs) hsplit
    cases kind with
    | none => cases h
    | some kind =>
      refine (keeps_record kind).read (fun p hp => ?_) h
      obtain ⟨m, hm, rfl⟩ := List.mem_map.mp hp
      exact hothers m hm
  · obtain ⟨_, -, h⟩ := bind_eq_ok.mp h
    cases h
  · next first rest ending =>
    obtain ⟨kind, -, h⟩ := bind_eq_ok.mp h
    obtain ⟨values, hvalues, h⟩ := bind_eq_ok.mp h
    obtain ⟨_, -, h⟩ := bind_eq_ok.mp h
    refine (keeps_record kind).read (fun p hp => ?_) h
    obtain ⟨v, hv, rfl⟩ := List.mem_map.mp hp
    obtain ⟨s, hmem, hread⟩ := exists_of_mapM hvalues hv
    refine ⟨v, rfl, within_of_read ?_ (orFlaw_eq_ok hread)⟩
    exact fits_array.mp hs s (List.mem_cons_of_mem _ hmem)
  · cases h

end Node

/-! ### Workflows and requests that were read -/

theorem readText_eq_ok {α : Type} {read : Source → Except Fault α} {text : String} {a : α}
    (h : readText read text = .ok a) : read (ofText text).1 = .ok a := by
  obtain ⟨a', hread, h⟩ := bind_eq_ok.mp h
  obtain ⟨_, -, h⟩ := bind_eq_ok.mp h
  cases h
  exact hread

namespace Workflow

theorem keeps_record (mode : Mode) : (record mode).Keeps Workflow.Proper Source.Fits := by
  refine ⟨List.forall_mem_nil _, ?_⟩
  simp only [record, List.forall_mem_cons]
  refine ⟨?_, ?_, List.forall_mem_nil _⟩
  · refine Record.put_keeps fun _ s _ _ hs hread n hn => ?_
    obtain ⟨p, hp, hread⟩ := of_list hread hn
    exact Node.proper_of_read (fits_parts hs p hp) hread
  · exact Record.put_keeps fun _ _ _ hw _ _ => hw

theorem proper_of_parse {text : String} {w : Workflow} (h : parse text = .ok w) : w.Proper :=
  (keeps_record .streamed).read (fits_parts (fits_ofText text)) (readText_eq_ok h)

end Workflow

namespace Request

theorem fits_of_splitOptions {options options' : Option Options}
    {members others : List (Source × Source)} (hmembers : ∀ m ∈ members, m.2.Fits)
    (h : splitOptions options members = .ok (options', others)) : ∀ m ∈ others, m.2.Fits := by
  induction members generalizing options options' others with
  | nil =>
    cases h
    exact List.forall_mem_nil _
  | cons m members ih =>
    obtain ⟨hm, hmembers⟩ := List.forall_mem_cons.mp hmembers
    obtain ⟨key, -, h⟩ := bind_eq_ok.mp h
    split at h
    · split at h
      · cases h
      · obtain ⟨o, -, h⟩ := bind_eq_ok.mp h
        exact ih hmembers h
    · obtain ⟨v, hv, h⟩ := bind_eq_ok.mp h
      obtain ⟨⟨o, rest⟩, hrest, h⟩ := bind_eq_ok.mp h
      cases h
      refine List.forall_mem_cons.mpr ⟨fits_source ?_, ih hmembers hrest⟩
      exact (within_of_read hm (orFlaw_eq_ok hv)).2

theorem proper_of_parse {text : String} {r : Request} (h : parse text = .ok r) :
    r.workflow.Proper := by
  have hread := readText_eq_ok h
  have hfits := fits_ofText text
  rw [read.eq_def] at hread
  split at hread
  · next heq =>
    rw [heq] at hfits
    obtain ⟨⟨o, others⟩, hsplit, hread⟩ := bind_eq_ok.mp hread
    obtain ⟨_, -, hread⟩ := bind_eq_ok.mp hread
    obtain ⟨w, hw, hread⟩ := bind_eq_ok.mp hread
    cases hread
    have hothers := fits_of_splitOptions (fits_object.mp hfits) hsplit
    exact (Workflow.keeps_record .buffered).ofMembers hothers hw
  · cases hread

end Request

/-! ### Reading what was written -/

/-- Reading the text of a value is reading the value. -/
theorem readText_render {α : Type} (read : Source → Except Fault α) {v : Value}
    (h : ∀ n ∈ v.numbers, n.ReadsBack) : readText read v.render = read v.source := by
  rw [readText, ofText_render h]
  dsimp only
  cases read v.source <;> rfl

/-- Of the numbers that fit, only doubles may not read back. -/
theorem readsBack_of_within {v : Value} {room : Nat} (h : v.Within room)
    (hreal : ∀ x, .real x ∈ v.numbers → (Number.real x).ReadsBack) :
    ∀ n ∈ v.numbers, n.ReadsBack := by
  intro n hn
  cases n with
  | integer i => exact readsBack_integer (h.2 _ hn)
  | real x => exact hreal x hn

theorem Workflow.within_toJson {w : Workflow} (h : w.Proper) : w.toJson.Within 127 :=
  Value.within_object.mpr (Workflow.within_members h)

theorem Request.within_toJson {r : Request} (h : r.workflow.Proper) : r.toJson.Within 127 := by
  have hoptions : r.options.toJson.Within 126 := Value.within_object.mpr (by simp)
  refine Value.within_object.mpr fun m hm => ?_
  rcases List.mem_append.mp hm with hm | hm
  · exact Workflow.within_members h m hm
  · rw [List.mem_singleton.mp hm]
    exact hoptions

/-- A workflow that was read from any text is read again from its own text, and a request as well,
if the doubles in them are read as they are written. -/
theorem parse_render :
    (∀ text w, Workflow.parse text = .ok w →
      (∀ x, .real x ∈ w.toJson.numbers → (Number.real x).ReadsBack) →
      Workflow.parse w.toJson.render = .ok w) ∧
    ∀ text r, Request.parse text = .ok r →
      (∀ x, .real x ∈ r.toJson.numbers → (Number.real x).ReadsBack) →
      Request.parse r.toJson.render = .ok r := by
  constructor
  · intro text w hparse hreal
    have hproper := Workflow.proper_of_parse hparse
    have hnumbers := readsBack_of_within (Workflow.within_toJson hproper) hreal
    rw [Workflow.parse, readText_render _ hnumbers]
    exact Workflow.read_toJson hproper .streamed
  · intro text r hparse hreal
    have hproper := Request.proper_of_parse hparse
    have hnumbers := readsBack_of_within (Request.within_toJson hproper) hreal
    rw [Request.parse, readText_render _ hnumbers]
    exact Request.read_toJson hproper

/-- A node as an array, fields in another order and under their second names, a choice written as
an object, a name that is given twice, numbers without a point for doubles. -/
def deskMembers : List (String × Value) :=
  [ ("edges", .array
      [ .array [.string "e1", .string "inbox", .string "answer"],
        .object [("target", .string "send"), ("source", .string "answer"), ("id", .string "e2")] ]),
    ("nodes", .array
      [ .array
          [ .string "trigger", .string "inbox", .null,
            .object
              [ ("triggerType", .object [("webhook", .null)]),
                ("inputSchema", .object
                  [ ("to", .array [.number (.integer (-1)), .number (.real 2.5)]),
                    ("cc", .object []), ("to", .bool true), ("at", .number (.real 0.5)) ]) ] ],
        .object
          [ ("data", .object
              [ ("temperature", .number (.integer 1)), ("maxTokens", .number (.integer 4294967295)),
                ("prompt", .string "line\n"), ("label", .string "Answer") ]),
            ("position", .array [.number (.integer 3), .number (.real 0.25)]),
            ("kind", .string "agent"), ("id", .string "answer") ],
        .object
          [ ("kind", .string "toolCall"), ("id", .string "send"), ("note", .null),
            ("data", .object
              [ ("tool", .string "mail"),
                ("arguments", .object
                  [("to", .string "a"), ("cc", .string "b"), ("to", .string "c")]) ]) ] ]) ]

def deskText : String := (Value.object deskMembers).render

def deskRequest : String :=
  (Value.object (("options", .object [("emitComments", .bool false)]) :: deskMembers)).render

theorem parse_render_desk :
    (∃ w, Workflow.parse deskText = .ok w ∧ w.nodes.map Node.id = ["inbox", "answer", "send"] ∧
      Number.real 0.5 ∈ w.toJson.numbers ∧
      (∀ x, .real x ∈ w.toJson.numbers → (Number.real x).ReadsBack) ∧
      Workflow.parse w.toJson.render = .ok w) ∧
    ∃ r, Request.parse deskRequest = .ok r ∧ r.options.emitComments = false ∧
      Number.real 0.5 ∈ r.toJson.numbers ∧
      (∀ x, .real x ∈ r.toJson.numbers → (Number.real x).ReadsBack) ∧
      Request.parse r.toJson.render = .ok r := by
  constructor
  · have htext : Workflow.parse deskText = (Workflow.record .streamed).read .streamed "Workflow"
        (Value.object deskMembers).source := readText_render _ (by decide +kernel)
    obtain ⟨w, hw, hids, hhalf, hreal⟩ : ∃ w, Workflow.parse deskText = .ok w ∧
        w.nodes.map Node.id = ["inbox", "answer", "send"] ∧ Number.real 0.5 ∈ w.toJson.numbers ∧
        ∀ n ∈ w.toJson.numbers, n.ReadsBack := by
      rw [htext]
      exact exists_ok (by decide +kernel)
    exact ⟨w, hw, hids, hhalf, fun x => hreal _, parse_render.1 deskText w hw fun x => hreal _⟩
  · have htext : Request.parse deskRequest = Request.read (Value.object
        (("options", .object [("emitComments", .bool false)]) :: deskMembers)).source :=
      readText_render _ (by decide +kernel)
    obtain ⟨r, hr, hcomments, hhalf, hreal⟩ : ∃ r, Request.parse deskRequest = .ok r ∧
        r.options.emitComments = false ∧ Number.real 0.5 ∈ r.toJson.numbers ∧
        ∀ n ∈ r.toJson.numbers, n.ReadsBack := by
      rw [htext]
      exact exists_ok (by decide +kernel)
    exact ⟨r, hr, hcomments, hhalf, fun x => hreal _,
      parse_render.2 deskRequest r hr fun x => hreal _⟩

end Flowscript
