import Shorthand.Proofs.Clock.Text
import Shorthand.Proofs.Json.Fields
import Shorthand.Report.Data

/-!
Commands read from reports. A command has up to eleven fields, most of which are left out when they
say nothing; `Command.ofJson?_toJson` says that it is known from those that are written.
-/

namespace Shorthand

open Text Json

/-! ## Times -/

namespace ClockTime

def ofJson? (v : Json) : Option ClockTime := v.string?.bind fun s => (read s).toOption

theorem ofJson?_toJson (t : ClockTime) : ofJson? t.toJson = some t := by
  rw [ofJson?, toJson, string?_string, Option.bind_some, read_toText]
  rfl

theorem respects_ofJson? : Respects ofJson? := respects_string?.bind fun _ => .const _

end ClockTime

/-! ## Fields -/

/-- An optional field is found under its own key only, and only if it is set. -/
@[simp]
theorem lookup_optionalField (k key : String) (value : Option Json) :
    (optionalField key value).lookup k = if k = key then value else none := by
  cases value with
  | none => exact (ite_self none).symm
  | some a =>
    by_cases h : k = key <;> simp [optionalField, List.lookup_cons, h, beq_false_of_ne]

@[simp]
theorem lookup_flagField (k key : String) (value : Bool) :
    (flagField key value).lookup k = if k = key ∧ value then some (.bool true) else none := by
  cases value with
  | false => simp [flagField]
  | true => by_cases h : k = key <;> simp [flagField, List.lookup_cons, h, beq_false_of_ne]

@[simp]
theorem lookup_listField (k key : String) (items : List Json) :
    (listField key items).lookup k =
      if k = key ∧ ¬ items.isEmpty then some (.array items) else none := by
  cases items with
  | nil => simp [listField]
  | cons v rest => by_cases h : k = key <;> simp [listField, List.lookup_cons, h, beq_false_of_ne]

/-- An object that is left out when it has no fields. -/
@[simp]
theorem lookup_objectField (k key : String) (fields : List (String × Json)) :
    (if fields = [] then [] else [(key, Json.object fields)]).lookup k =
      if k = key ∧ fields ≠ [] then some (.object fields) else none := by
  cases fields with
  | nil => simp
  | cons f rest => by_cases h : k = key <;> simp [List.lookup_cons, h, beq_false_of_ne]

namespace Task

def ofJson? (v : Json) : Option Task := do
  let name ← required? string? "name" v
  let minutes ← required? nat? "duration" v
  let order ← optional? nat? "order" v
  return { name, minutes, order }

theorem ofJson?_toJson (t : Task) : ofJson? t.toJson = some t := by
  have hname : required? string? "name" t.toJson = some t.name := rfl
  have hminutes : required? nat? "duration" t.toJson = some t.minutes := nat?_nat t.minutes
  have horder : optional? nat? "order" t.toJson = some t.order := by
    apply optional?_of_get? nat?_nat
    simp [toJson, List.lookup_cons]
  rw [ofJson?, hname, hminutes, horder]
  rfl

theorem respects_ofJson? : Respects ofJson? :=
  (respects_string?.required? _).bind fun _ => (respects_nat?.required? _).bind fun _ =>
    (respects_nat?.optional? _).bind fun _ => .const _

end Task

/-! ## Commands -/

namespace Notes

def ofJson? (v : Json) : Option Notes := do
  let needsTime ← flag? "needsTime" v
  let invalidTime ← flag? "invalidTime" v
  let needsDuration ← flag? "needsDuration" v
  let query ← optional? string? "query" v
  let commands ← list? string? "commands" v
  let title ← optional? string? "title" v
  return { needsTime, invalidTime, needsDuration, query, commands, title }

/-- The notes of a command are read back from their fields, whichever of them are set. -/
theorem ofJson?_fields (n : Notes) : ofJson? (.object n.fields) = some n := by
  have htime : flag? "needsTime" (.object n.fields) = some n.needsTime := by
    apply flag?_of_get?
    simp [fields, List.lookup_append]
  have hinvalid : flag? "invalidTime" (.object n.fields) = some n.invalidTime := by
    apply flag?_of_get?
    simp [fields, List.lookup_append]
  have hduration : flag? "needsDuration" (.object n.fields) = some n.needsDuration := by
    apply flag?_of_get?
    simp [fields, List.lookup_append]
  have hquery : optional? string? "query" (.object n.fields) = some n.query := by
    apply optional?_of_get? string?_string
    simp [fields, List.lookup_append]
  have hcommands : list? string? "commands" (.object n.fields) = some n.commands := by
    apply list?_of_get? fun s _ => string?_string s
    simp [fields, List.lookup_append]
  have htitle : optional? string? "title" (.object n.fields) = some n.title := by
    apply optional?_of_get? string?_string
    simp [fields, List.lookup_append]
  rw [ofJson?, htime, hinvalid, hduration, hquery, hcommands, htitle]
  rfl

theorem respects_ofJson? : Respects ofJson? :=
  (Respects.flag? _).bind fun _ => (Respects.flag? _).bind fun _ => (Respects.flag? _).bind fun _ =>
    (respects_string?.optional? _).bind fun _ => (respects_string?.list? _).bind fun _ =>
      (respects_string?.optional? _).bind fun _ => .const _

/-- Notes that say nothing are read from no fields. -/
theorem eq_of_fields_eq_nil {n : Notes} (h : n.fields = []) : n = {} := by
  have hread := n.ofJson?_fields
  rw [h] at hread
  exact Option.some.inj (hread.symm.trans rfl)

end Notes

namespace Command

/-- The command that an object stands for. What is absent is unset, empty or false; only the kind
and whether the command is valid have to be there. -/
def ofJson? (v : Json) : Option Command := do
  let kind ← required? (fun v => v.string?.bind CommandKind.ofName?) "type" v
  let subtype ← optional? string? "subtype" v
  let start ← optional? ClockTime.ofJson? "timeStart" v
  let finish ← optional? ClockTime.ofJson? "timeEnd" v
  let length ← optional? int? "duration" v
  let tasks ← list? Task.ofJson? "tasks" v
  let attendees ← list? string? "attendees" v
  let notes ← optional? Notes.ofJson? "metadata" v
  let isValid ← required? bool? "isValid" v
  let hint ← optional? string? "suggestion" v
  let preview ← optional? string? "preview" v
  return {
    kind, subtype, slot := { start, finish, length }, tasks, attendees, notes := notes.getD {},
    isValid, hint, preview }

theorem respects_ofJson? : Respects ofJson? :=
  ((respects_string?.bind fun _ => .const _).required? _).bind fun _ =>
    (respects_string?.optional? _).bind fun _ =>
    (ClockTime.respects_ofJson?.optional? _).bind fun _ =>
    (ClockTime.respects_ofJson?.optional? _).bind fun _ =>
    (respects_int?.optional? _).bind fun _ =>
    (Task.respects_ofJson?.list? _).bind fun _ =>
    (respects_string?.list? _).bind fun _ =>
    (Notes.respects_ofJson?.optional? _).bind fun _ =>
    (respects_bool?.required? _).bind fun _ =>
    (respects_string?.optional? _).bind fun _ =>
    (respects_string?.optional? _).bind fun _ => .const _

/-- A command is read back from its value. -/
theorem ofJson?_toJson (c : Command) : ofJson? c.toJson = some c := by
  have hkind : required? (fun v => v.string?.bind CommandKind.ofName?) "type" c.toJson =
      some c.kind := c.kind.ofName?_name
  have hsubtype : optional? string? "subtype" c.toJson = some c.subtype := by
    apply optional?_of_get? string?_string
    simp [toJson, List.lookup_append, List.lookup_cons]
  have hstart : optional? ClockTime.ofJson? "timeStart" c.toJson = some c.slot.start := by
    apply optional?_of_get? ClockTime.ofJson?_toJson
    simp [toJson, List.lookup_append, List.lookup_cons]
  have hfinish : optional? ClockTime.ofJson? "timeEnd" c.toJson = some c.slot.finish := by
    apply optional?_of_get? ClockTime.ofJson?_toJson
    simp [toJson, List.lookup_append, List.lookup_cons]
  have hlength : optional? int? "duration" c.toJson = some c.slot.length := by
    apply optional?_of_get? int?_int
    simp [toJson, List.lookup_append, List.lookup_cons]
  have htasks : list? Task.ofJson? "tasks" c.toJson = some c.tasks := by
    apply list?_of_get? fun t _ => t.ofJson?_toJson
    simp [toJson, List.lookup_append, List.lookup_cons]
  have hattendees : list? string? "attendees" c.toJson = some c.attendees := by
    apply list?_of_get? fun s _ => string?_string s
    simp [toJson, List.lookup_append, List.lookup_cons]
  have hvalid : required? bool? "isValid" c.toJson = some c.isValid := by
    apply required?_of_get? (bool?_bool c.isValid)
    simp [toJson, List.lookup_append, List.lookup_cons]
  have hhint : optional? string? "suggestion" c.toJson = some c.hint := by
    apply optional?_of_get? string?_string
    simp [toJson, List.lookup_append, List.lookup_cons]
  have hpreview : optional? string? "preview" c.toJson = some c.preview := by
    apply optional?_of_get? string?_string
    simp [toJson, List.lookup_append, List.lookup_cons]
  -- Notes that say nothing are left out as a whole, and read from nothing they say nothing.
  have hmetadata : c.toJson.get? "metadata" =
      if c.notes.fields = [] then none else some (.object c.notes.fields) := by
    simp [toJson, List.lookup_append, List.lookup_cons]
  have hnotes : ∃ n?, optional? Notes.ofJson? "metadata" c.toJson = some n? ∧
      n?.getD {} = c.notes := by
    unfold optional?
    rw [hmetadata]
    by_cases hnil : c.notes.fields = []
    · rw [if_pos hnil]
      exact ⟨none, rfl, (Notes.eq_of_fields_eq_nil hnil).symm⟩
    · rw [if_neg hnil]
      exact ⟨some c.notes, congrArg (Option.map some) c.notes.ofJson?_fields, rfl⟩
  obtain ⟨n?, hnotes, hn⟩ := hnotes
  rw [ofJson?, hkind, hsubtype, hstart, hfinish, hlength, htasks, hattendees, hnotes, hvalid, hhint,
    hpreview]
  simp only [Option.bind_eq_bind, Option.bind_some, hn]
  rfl

end Command

/-! ## Keys -/

/-- The keys of the fields are among `keys`, in their order, and the values are plain. -/
structure PlainFields (keys : List String) (fields : List (String × Json)) : Prop where
  sublist : (fields.map Prod.fst).Sublist keys
  plain : ∀ f ∈ fields, Plain f.2

namespace PlainFields

/-- Fields of distinct keys with plain values make a plain object. -/
theorem object {keys : List String} {fields : List (String × Json)} (h : PlainFields keys fields)
    (hkeys : keys.Nodup) : Plain (.object fields) :=
  .object (h.sublist.nodup hkeys) h.plain

theorem append {keys keys' : List String} {fields fields' : List (String × Json)}
    (h : PlainFields keys fields) (h' : PlainFields keys' fields') :
    PlainFields (keys ++ keys') (fields ++ fields') := by
  refine ⟨?_, ?_⟩
  · rw [List.map_append]
    exact h.sublist.append h'.sublist
  · intro f hf
    rcases List.mem_append.1 hf with hf | hf
    · exact h.plain f hf
    · exact h'.plain f hf

theorem nil (key : String) : PlainFields [key] [] :=
  ⟨List.nil_sublist _, nofun⟩

theorem single (key : String) {v : Json} (h : Plain v) : PlainFields [key] [(key, v)] :=
  ⟨List.Sublist.refl _, List.forall_mem_singleton.2 h⟩

theorem optional {α : Type} (key : String) {write : α → Json} (a? : Option α)
    (h : ∀ a, Plain (write a)) : PlainFields [key] (optionalField key (a?.map write)) := by
  cases a? with
  | none => exact nil key
  | some a => exact single key (h a)

theorem flag (key : String) (b : Bool) : PlainFields [key] (flagField key b) := by
  cases b
  · exact nil key
  · exact single key (.bool true)

theorem list {α : Type} (key : String) {write : α → Json} (items : List α)
    (h : ∀ a, Plain (write a)) : PlainFields [key] (listField key (items.map write)) := by
  cases items with
  | nil => exact nil key
  | cons a rest => exact single key (.array (List.forall_mem_map.2 fun b _ => h b))

end PlainFields

theorem ClockTime.plain_toJson (t : ClockTime) : Plain t.toJson := .string _

theorem Task.plain_toJson (t : Task) : Plain t.toJson := by
  have hname := PlainFields.single "name" (.string t.name)
  have hminutes := PlainFields.single "duration" (.int t.minutes)
  have horder := PlainFields.optional "order" t.order fun n => .int n
  exact ((hname.append hminutes).append horder).object (by decide)

theorem Notes.plain_fields (n : Notes) : Plain (.object n.fields) := by
  have hflags := ((PlainFields.flag "needsTime" n.needsTime).append
    (.flag "invalidTime" n.invalidTime)).append (.flag "needsDuration" n.needsDuration)
  have hquery := PlainFields.optional "query" n.query Plain.string
  have hcommands := PlainFields.list "commands" n.commands Plain.string
  have htitle := PlainFields.optional "title" n.title Plain.string
  exact (((hflags.append hquery).append hcommands).append htitle).object (by decide)

/-- The value of a command is plain: its numbers are whole, and no key comes twice. -/
theorem Command.plain_toJson (c : Command) : Plain c.toJson := by
  have hkind := PlainFields.single "type" (.string c.kind.name)
  have hsubtype := PlainFields.optional "subtype" c.subtype Plain.string
  have hstart := PlainFields.optional "timeStart" c.slot.start ClockTime.plain_toJson
  have hfinish := PlainFields.optional "timeEnd" c.slot.finish ClockTime.plain_toJson
  have hlength := PlainFields.optional "duration" c.slot.length Plain.int
  have htasks := PlainFields.list "tasks" c.tasks Task.plain_toJson
  have hattendees := PlainFields.list "attendees" c.attendees Plain.string
  have hnotes : PlainFields ["metadata"]
      (if c.notes.fields.isEmpty then [] else [("metadata", .object c.notes.fields)]) := by
    split
    · exact .nil _
    · exact .single _ c.notes.plain_fields
  have hvalid := PlainFields.single "isValid" (.bool c.isValid)
  have hhint := PlainFields.optional "suggestion" c.hint Plain.string
  have hpreview := PlainFields.optional "preview" c.preview Plain.string
  exact ((((((((((hkind.append hsubtype).append hstart).append hfinish).append hlength).append
    htasks).append hattendees).append hnotes).append hvalid).append hhint).append
    hpreview).object (by decide)

/-! ## Reports -/

namespace Report

theorem plain_expansion (batch : Command) (expanded : List Command) :
    Plain (.object [("command", batch.toJson), ("count", .nat expanded.length),
      ("expanded", .array (expanded.map Command.toJson))]) := by
  have hbatch := PlainFields.single "command" batch.plain_toJson
  have hcount := PlainFields.single "count" (.int expanded.length)
  have hexpanded := PlainFields.single "expanded"
    (.array (List.forall_mem_map.2 fun c (_ : c ∈ expanded) => c.plain_toJson))
  exact ((hbatch.append hcount).append hexpanded).object (by decide)

/-- The texts of a command: on one line and over several lines, with its fields as they are and with
the keys in order. -/
def printings (c : Command) : List String :=
  [c.toJson.toLine, c.toJson.toLines, c.toJson.sorted.toLine, c.toJson.sorted.toLines]

/-- A text of a command holds the value of the command, up to the order of fields. -/
theorem exists_read_of_mem_printings {c : Command} {text : String} (h : text ∈ printings c) :
    ∃ v, read? text = some v ∧ (v = c.toJson ∨ v = c.toJson.sorted) := by
  have hplain := c.plain_toJson
  simp only [printings, List.mem_cons, List.not_mem_nil, or_false] at h
  rcases h with rfl | rfl | rfl | rfl
  · exact ⟨_, read?_toLine hplain, Or.inl rfl⟩
  · exact ⟨_, read?_toLines hplain, Or.inl rfl⟩
  · exact ⟨_, read?_toLine hplain.sorted, Or.inr rfl⟩
  · exact ⟨_, read?_toLines hplain.sorted, Or.inr rfl⟩

/-- A command is read back from its value with the keys in order as well. -/
theorem ofJson?_sorted (c : Command) : Command.ofJson? c.toJson.sorted = some c := by
  rw [← Command.respects_ofJson? c.plain_toJson c.plain_toJson.same_sorted, c.ofJson?_toJson]

/-- A command is read back from each of its texts. -/
theorem recovered_of_mem_printings {c : Command} {text : String} (h : text ∈ printings c) :
    (read? text).bind Command.ofJson? = some c := by
  obtain ⟨v, hread, rfl | rfl⟩ := exists_read_of_mem_printings h
  · rw [hread, Option.bind_some, c.ofJson?_toJson]
  · rw [hread, Option.bind_some, ofJson?_sorted]

/-- The report on a batch holds the batch and, in their order, the commands in it. -/
theorem exists_read_expansion (batch : Command) (expanded : List Command) :
    ∃ v, read? (expansionJson batch expanded).toLines = some v ∧
      required? Command.ofJson? "command" v = some batch ∧
      required? (each? Command.ofJson?) "expanded" v = some expanded := by
  have hplain := plain_expansion batch expanded
  have hsame := hplain.same_sorted
  refine ⟨_, read?_toLines hplain.sorted, ?_, ?_⟩
  · exact (Command.respects_ofJson?.required? "command" hplain hsame).symm.trans
      batch.ofJson?_toJson
  · exact (Command.respects_ofJson?.each?.required? "expanded" hplain hsame).symm.trans
      (each?_array fun c _ => c.ofJson?_toJson)

/-- Two batches with the same text are the same batch of the same commands. -/
theorem expansion_injective {batch batch' : Command} {expanded expanded' : List Command}
    (h : (expansionJson batch expanded).toLines = (expansionJson batch' expanded').toLines) :
    batch = batch' ∧ expanded = expanded' := by
  obtain ⟨v, hread, hbatch, hexpanded⟩ := exists_read_expansion batch expanded
  obtain ⟨w, hread', hbatch', hexpanded'⟩ := exists_read_expansion batch' expanded'
  obtain rfl : v = w := Option.some.inj (by rw [← hread, h, hread'])
  exact ⟨Option.some.inj (hbatch.symm.trans hbatch'),
    Option.some.inj (hexpanded.symm.trans hexpanded')⟩

/-- No two commands have a text in common. -/
theorem eq_of_mem_printings {c d : Command} {text : String} (hc : text ∈ printings c)
    (hd : text ∈ printings d) : c = d :=
  Option.some.inj ((recovered_of_mem_printings hc).symm.trans (recovered_of_mem_printings hd))

theorem same_of_mem_printings {c : Command} {text text' : String} (h : text ∈ printings c)
    (h' : text' ∈ printings c) :
    ∃ v w, read? text = some v ∧ read? text' = some w ∧ Same v w := by
  have hsorted := c.plain_toJson.same_sorted
  obtain ⟨v, hread, hv⟩ := exists_read_of_mem_printings h
  obtain ⟨w, hread', hw⟩ := exists_read_of_mem_printings h'
  refine ⟨v, w, hread, hread', ?_⟩
  rcases hv with rfl | rfl <;> rcases hw with rfl | rfl
  · exact .refl _
  · exact hsorted
  · exact hsorted.symm
  · exact .refl _

/-- Reports lose nothing. A command is recovered from its text over several lines and from the one
on a single line; a batch and the commands in it, each at its place, are recovered from the report
on the batch. So no text is printed for two commands, not even where they differ only in an empty
query, nor is a report for two batches; and the texts of a command hold one value, up to the order
of fields. -/
theorem commands_recovered (c d batch : Command) (expanded : List Command) :
    (read? c.toJson.toLines).bind Command.ofJson? = some c ∧
    (read? c.toJson.toLine).bind Command.ofJson? = some c ∧
    (∃ (v : Json) (items : List Json), read? (expansionJson batch expanded).toLines = some v ∧
      required? Command.ofJson? "command" v = some batch ∧
      required? items? "expanded" v = some items ∧
      ∀ i : Nat, items[i]?.bind Command.ofJson? = expanded[i]?) ∧
    (∀ text ∈ printings c, text ∈ printings d → c = d) ∧
    (∀ text ∈ printings { c with notes := { c.notes with query := some "" } },
      text ∉ printings { c with notes := { c.notes with query := none } }) ∧
    (∀ batch' expanded', (expansionJson batch expanded).toLines =
      (expansionJson batch' expanded').toLines → batch = batch' ∧ expanded = expanded') ∧
    ∀ text ∈ printings c, ∀ text' ∈ printings c,
      ∃ v w, read? text = some v ∧ read? text' = some w ∧ Same v w := by
  refine ⟨?_, ?_, ?_, ?_, ?_, ?_, ?_⟩
  · exact recovered_of_mem_printings (List.mem_cons_of_mem _ List.mem_cons_self)
  · exact recovered_of_mem_printings List.mem_cons_self
  · obtain ⟨v, hread, hbatch, hexpanded⟩ := exists_read_expansion batch expanded
    obtain ⟨a, ha, heach⟩ := Option.bind_eq_some_iff.1 hexpanded
    obtain ⟨items, hitems, hplaces⟩ := getElem?_bind_of_each? heach
    exact ⟨v, items, hread, hbatch, Option.bind_eq_some_iff.2 ⟨a, ha, hitems⟩, hplaces⟩
  · exact fun text => eq_of_mem_printings
  · intro text hsome hnone
    -- A text they had in common would make the two commands one.
    have heq := eq_of_mem_printings hsome hnone
    cases congrArg (fun c => c.notes.query) heq
  · exact fun batch' expanded' => expansion_injective
  · exact fun text h text' h' => same_of_mem_printings h h'

end Report

end Shorthand
