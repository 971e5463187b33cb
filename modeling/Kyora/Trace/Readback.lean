import Kyora.Trace.Codec

/-! # Reading transcripts back

  Every line of a session is read back as the record it was written for, and the
  tree of the transcript is the tree of the records, exactly as long as no
  structured answer, no `null` prompt and no disguised stop reason is among the
  accepted records. A structured answer makes the whole transcript unreadable.
-/

namespace Kyora.Trace

open Objects (Fields.get_cons Fields.get_nil Fields.get_map_value Fields.lookup_members
  Fields.get_eq_none_of_not_mem lookup_map_value)

/-! ### What is read back -/

/-- An event as a transcript has it: a large prompt is the reference of its blob. -/
def TraceEvent.stored (c : Codec) : TraceEvent → TraceEvent
  | .nodeStart start => .nodeStart { start with prompt := start.prompt.map (storedPrompt c) }
  | event => event

def TraceRecord.stored (c : Codec) (record : TraceRecord) : TraceRecord :=
  { record with event := record.event.stored c }

/-- The events whose line is read back with the same fields. -/
def TraceEvent.ReadsBack : TraceEvent → Prop
  | .nodeStart start => start.prompt ≠ some .null
  | .attemptEnd settled => ∀ stop ∈ settled.stopReason, ¬stop.Disguised
  | .nodeEnd outcome => ∃ text, outcome.answer = .text text
  | _ => True

/-- The time of an envelope is read back from its text. -/
def TraceEvent.Timed (c : Codec) : TraceEvent → Prop
  | .messageSent posted | .messageUndelivered posted _ =>
    c.parseTime (c.printTime posted.sentAt) = some posted.sentAt
  | _ => True

/-! ### One event -/

/-- The fields of an event after its prompt was stored. -/
def storedFields (c : Codec) (fields : Kyora.Fields) : Kyora.Fields :=
  fields.map fun x => (x.1, x.2.map (storedMember c x.1))

/-- Only a prompt is changed. -/
theorem storedFields_eq (c : Codec) {fields : Kyora.Fields}
    (h : "prompt" ∉ fields.map Prod.fst) : storedFields c fields = fields := by
  have hid : ∀ x ∈ fields, (x.1, x.2.map (storedMember c x.1)) = x := by
    intro x hx
    have hkey : x.1 ≠ "prompt" := fun heq => h (heq ▸ List.mem_map_of_mem hx)
    have hsame : storedMember c x.1 = id := funext fun value => if_neg hkey
    rw [hsame, Option.map_id]
    rfl
  exact (List.map_congr_left hid).trans (List.map_id fields)

/-- An event is read as its tag says. -/
theorem TraceEvent.read_of_tag {members : Members} {tag : String} (c : Codec)
    (h : members "type" = some (.string tag)) :
    TraceEvent.read c members = TraceEvent.readVariant c members tag := by
  rw [TraceEvent.read, Members.required, h]
  rfl

theorem Posted.read_of {c : Codec} {posted : Posted} {members : Members}
    (h : ∀ key ∈ (posted.fields c).map Prod.fst, members key = (posted.fields c).get key)
    (htime : c.parseTime (c.printTime posted.sentAt) = some posted.sentAt) :
    Posted.read c members = some posted := by
  have hspawn : members.optional "spawn" Json.natural? = some posted.envelope.spawn := by
    apply Members.optional_of_skipped Json.natural
    · rw [h "spawn" (by simp [fields])]
      simp [fields, Fields.get_cons]
    · exact fun n _ => ⟨rfl, Json.natural_ne_null n⟩
  have hstatus : members.optional "status" Status.json? = some posted.envelope.status := by
    apply Members.optional_of_skipped fun status => Json.string status.asStr
    · rw [h "status" (by simp [fields])]
      simp [fields, Fields.get_cons]
    · exact fun status _ => ⟨Status.json?_string status, nofun⟩
  simp [fields] at h
  obtain ⟨hid, hsender, hreceiver, hkind, hbody, htext, -, -⟩ := h
  simp [read, Members.required, Fields.get_cons, hid, hsender, hreceiver, hkind, hbody, htext,
    hspawn, hstatus, htime]

theorem storedFields_get (c : Codec) (fields : Kyora.Fields) (key : String) :
    (storedFields c fields).get key = (fields.get key).map (storedMember c key) :=
  Fields.get_map_value (storedMember c) fields key

/-- The text of `null` is too short for a blob, and the reference of a blob is an
    object. -/
theorem storedPrompt_eq_null_iff {c : Codec} (hnull : c.print .null = "null") (prompt : Json) :
    storedPrompt c prompt = .null ↔ prompt = .null := by
  unfold storedPrompt
  simp only
  split
  · next hlarge =>
    constructor
    · intro heq
      exact absurd heq (Json.ofFields_ne_null _)
    · rintro rfl
      rw [hnull] at hlarge
      exact absurd hlarge (by decide)
  · rfl

/-- A prompt is read back unless it is `null`. -/
theorem optional_prompt {c : Codec} (hnull : c.print .null = "null") {prompt : Option Json}
    {members : Members}
    (h : members "prompt" = some (storedPrompt c (.option id prompt))) :
    members.optional "prompt" some = some (prompt.map (storedPrompt c)) ↔
      prompt ≠ some .null := by
  cases prompt with
  | none =>
    have habsent : members "prompt" = some .null := by
      rw [h]
      exact congrArg some ((storedPrompt_eq_null_iff hnull _).mpr rfl)
    simp [Members.optional, habsent]
  | some prompt =>
    by_cases hp : prompt = .null
    · subst hp
      have habsent : members "prompt" = some .null := by
        rw [h]
        exact congrArg some ((storedPrompt_eq_null_iff hnull _).mpr rfl)
      simp [Members.optional, habsent]
    · have hstored : storedPrompt c prompt ≠ .null :=
        fun heq => hp ((storedPrompt_eq_null_iff hnull prompt).mp heq)
      have hread : members.optional "prompt" some = some (some (storedPrompt c prompt)) := by
        apply Members.optional_of id h
        rintro _ ⟨⟩
        exact ⟨rfl, hstored⟩
      simp [hread, hp]

/-- A node's start is read back with the prompt that is found. -/
theorem NodeStart.read_of {c : Codec} {start : NodeStart} {members : Members}
    {fields : Kyora.Fields} {prompt : Option Json}
    (hfields : (TraceEvent.nodeStart start).fields c = some fields)
    (h : ∀ key, key ≠ "prompt" → members key = fields.get key)
    (hprompt : members.optional "prompt" some = some prompt) :
    TraceEvent.read c members = some (.nodeStart { start with prompt }) := by
  obtain rfl := Option.some.inj hfields
  have hparent : members.optional "parent" Json.natural? = some start.parent := by
    apply Members.optional_of Json.natural
    · rw [h "parent" (by decide)]
      simp [Fields.get_cons]
    · exact fun n _ => ⟨rfl, Json.natural_ne_null n⟩
  have horigin : members.optional "origin_cell" Json.natural? = some start.originCell := by
    apply Members.optional_of_skipped Json.natural
    · rw [h "origin_cell" (by decide)]
      simp [Fields.get_cons]
    · exact fun n _ => ⟨rfl, Json.natural_ne_null n⟩
  have hsystem : members.optional "system" Json.text? = some start.system := by
    apply Members.optional_of Json.string
    · rw [h "system" (by decide)]
      simp [Fields.get_cons]
    · exact fun s _ => ⟨rfl, nofun⟩
  have htools := Json.list?_list start.tools fun t _ => ToolSpec.json?_json t
  have htag : members "type" = some (.string "node_start") := h "type" (by decide)
  rw [TraceEvent.read_of_tag c htag, TraceEvent.readVariant]
  simp [Members.required, h, Fields.get_cons, hparent, horigin, hsystem, htools, hprompt]

/-- A settlement is read back with the stop reason that its spelling stands for. -/
theorem AttemptEnd.read_of {c : Codec} {settled : AttemptEnd} {members : Members}
    {fields : Kyora.Fields} (hfields : (TraceEvent.attemptEnd settled).fields c = some fields)
    (h : ∀ key, members key = fields.get key) :
    TraceEvent.read c members =
      some (.attemptEnd { settled with
        stopReason := settled.stopReason.map fun stop => .ofStr stop.asStr }) := by
  obtain rfl := Option.some.inj hfields
  have hrequest : members.optional "request_id" Json.text? = some settled.requestId := by
    apply Members.optional_of Json.string
    · simp [h, Fields.get_cons]
    · exact fun s _ => ⟨rfl, nofun⟩
  have husage : members.optional "usage" Usage.json? = some settled.usage := by
    apply Members.optional_of Usage.json
    · simp [h, Fields.get_cons]
    · exact fun u _ => ⟨Usage.json?_json u, Json.ofFields_ne_null _⟩
  have hstop : members.optional "stop_reason" StopReason.json? =
      some (settled.stopReason.map fun stop => .ofStr stop.asStr) := by
    cases hreason : settled.stopReason with
    | none => simp [Members.optional, h, Fields.get_cons, Json.option, hreason]
    | some stop =>
      simp [Members.optional, h, Fields.get_cons, Json.option, StopReason.json?, hreason]
  have htag : members "type" = some (.string "attempt_end") := h "type"
  rw [TraceEvent.read_of_tag c htag, TraceEvent.readVariant]
  simp [hrequest, husage, hstop, Members.required, h, Fields.get_cons]

/-- An event that ends a node is read back if its answer is text, and not at all if
    it is structured. -/
theorem TraceEvent.read_nodeEnd (c : Codec) {outcome : AgentOutcome} {own : Kyora.Fields}
    (hown : outcome.fields c = some own) :
    TraceEvent.read c (storedFields c (("type", some (.string "node_end")) :: own)).get =
      match outcome.answer with
      | .text _ => some (.nodeEnd outcome)
      | .value _ => none := by
  obtain ⟨node, status, answer, usageSelf, usageSubtree, turns⟩ := outcome
  obtain ⟨json, hjson, rfl⟩ := Option.map_eq_some_iff.mp hown
  rw [storedFields_eq c (by simp), read_of_tag c rfl, readVariant]
  cases answer with
  | text text =>
    obtain rfl := Option.some.inj hjson
    simp [AgentOutcome.read, Members.required, Fields.get_cons]
  | value raw =>
    -- the bytes can only be taken from the parser
    obtain ⟨value, -, rfl⟩ := Option.map_eq_some_iff.mp hjson
    simp [AgentOutcome.read, Members.required, Fields.get_cons]

/-- What is read back from the fields of an event, once its prompt is stored. -/
theorem TraceEvent.read_stored (c : Codec) {event : TraceEvent} {fields : Kyora.Fields}
    (h : event.fields c = some fields) (htime : event.Timed c) (hnull : c.print .null = "null") :
    read c (storedFields c fields).get = some (event.stored c) ↔ event.ReadsBack := by
  cases event with
  | nodeStart start =>
    have hother : ∀ key, key ≠ "prompt" → (storedFields c fields).get key = fields.get key := by
      intro key hkey
      have hsame : storedMember c key = id := funext fun value => if_neg hkey
      rw [storedFields_get, hsame, Option.map_id, id]
    have hprompt : (storedFields c fields).get "prompt" =
        some (storedPrompt c (.option id start.prompt)) := by
      obtain rfl := Option.some.inj h
      rw [storedFields_get]
      simp [Fields.get_cons, storedMember]
    rw [ReadsBack, ← optional_prompt hnull hprompt]
    have hoption : ∃ prompt, Members.optional (storedFields c fields).get "prompt" some =
        some prompt := by
      unfold Members.optional
      split
      · exact ⟨none, rfl⟩
      · exact ⟨none, rfl⟩
      · exact ⟨some _, rfl⟩
    obtain ⟨prompt, hread⟩ := hoption
    rw [NodeStart.read_of h hother hread, hread, stored]
    simp
  | attemptEnd settled =>
    have hsame : storedFields c fields = fields := by
      obtain rfl := Option.some.inj h
      exact storedFields_eq c (by simp)
    have hstored : (TraceEvent.attemptEnd settled).stored c = .attemptEnd settled := rfl
    rw [hsame, AttemptEnd.read_of h fun _ => rfl, ReadsBack, hstored]
    obtain ⟨node, attempt, requestId, outcome, charged, excess, usage, stopReason, ms⟩ := settled
    cases stopReason with
    | none => simp
    | some stop => simp [StopReason.ofStr_asStr]
  | messageSent posted =>
    obtain rfl := Option.some.inj h
    rw [storedFields_eq c (by simp [Posted.fields])]
    have hread : Posted.read c (Objects.Fields.get
        (("type", some (.string "message_sent")) :: posted.fields c)) = some posted :=
      Posted.read_of (by simp [Posted.fields, Fields.get_cons]) htime
    rw [read_of_tag c rfl, readVariant, hread]
    simp [ReadsBack, stored]
  | messageUndelivered posted reason =>
    obtain rfl := Option.some.inj h
    rw [storedFields_eq c (by simp [Posted.fields])]
    have hread : Posted.read c (Objects.Fields.get
        (("type", some (.string "message_undelivered")) :: posted.fields c ++
          [("reason", some (.string reason))])) = some posted :=
      Posted.read_of (by simp [Posted.fields, Fields.get_cons]) htime
    have hreason : Objects.Fields.get
        (("type", some (.string "message_undelivered")) :: posted.fields c ++
          [("reason", some (.string reason))]) "reason" = some (.string reason) := by
      simp [Posted.fields, Fields.get_cons]
    rw [read_of_tag c rfl, readVariant, hread, Members.required, hreason]
    simp [ReadsBack, stored]
  | nodeEnd outcome =>
    obtain ⟨own, hown, rfl⟩ := Option.map_eq_some_iff.mp h
    rw [read_nodeEnd c hown, ReadsBack, stored]
    · cases hanswer : outcome.answer with
      | text text => simp
      | value raw => simp
    · exact fun start heq => absurd heq (by simp)
  | messageDelivered node messages via =>
    obtain rfl := Option.some.inj h
    rw [storedFields_eq c (by simp), read_of_tag c rfl, readVariant]
    have hmessages := Json.list?_list messages fun n _ => Json.natural?_natural n
    simp [Members.required, Fields.get_cons, ReadsBack, stored, hmessages]
  | sessionStart | message | attemptStart | invalidToolInput | error | toolCall | toolResult
  | sessionEnd =>
    obtain rfl := Option.some.inj h
    rw [storedFields_eq c (by simp), read_of_tag c rfl, readVariant]
    simp [Members.required, Fields.get_cons, ReadsBack, stored]
  | delta | streamReset => cases h

/-! ### One record -/

/-- No field of a record has the name of another one. -/
theorem TraceRecord.keys_nodup {c : Codec} {record : TraceRecord} {fields : Kyora.Fields}
    (h : record.fields c = some fields) : (fields.map Prod.fst).Nodup := by
  obtain ⟨event, hevent, rfl⟩ := Option.map_eq_some_iff.mp h
  cases hrecord : record.event with
  | nodeEnd outcome =>
    rw [hrecord] at hevent
    obtain ⟨own, hown, rfl⟩ := Option.map_eq_some_iff.mp hevent
    obtain ⟨json, hjson, rfl⟩ := Option.map_eq_some_iff.mp hown
    simp
  | messageSent posted | messageUndelivered posted reason =>
    rw [hrecord] at hevent
    obtain rfl := Option.some.inj hevent
    simp [Posted.fields]
  | sessionStart | nodeStart | message | attemptStart | attemptEnd | invalidToolInput | error
  | toolCall | toolResult | messageDelivered | sessionEnd =>
    rw [hrecord] at hevent
    obtain rfl := Option.some.inj hevent
    simp
  | delta | streamReset =>
    rw [hrecord] at hevent
    cases hevent

/-- The members of a written record say what its fields say, once the prompt is
    stored. -/
theorem object?_storedValue {α : Type} (read : Members → Option α) {c : Codec}
    {fields : Kyora.Fields} (hkeys : (fields.map Prod.fst).Nodup) :
    Json.object? read (storedValue c (.ofFields fields)) = read (storedFields c fields).get := by
  have hlookup : (fun key => ((Objects.Fields.members (fun a b => decide (a ≤ b)) fields).map
      fun x => (x.1, storedMember c x.1 x.2)).lookup key) = (storedFields c fields).get := by
    funext key
    rw [lookup_map_value (storedMember c), Fields.lookup_members _ hkeys, storedFields_get]
  exact congrArg read hlookup

/-- A record is read from its line's value as its event is from the event's fields. -/
theorem TraceRecord.read_storedValue (c : Codec) {record : TraceRecord} {event : Kyora.Fields}
    (hevent : record.event.fields c = some event) :
    ∃ fields, record.fields c = some fields ∧
      Json.object? (TraceRecord.read c) (storedValue c (.ofFields fields)) =
        (TraceEvent.read c (storedFields c event).get).map fun e =>
          { record with event := e } := by
  have h : record.fields c = some ([("v", some (.natural record.v)),
      ("seq", record.seq.map .natural), ("ts", some (.string record.ts))] ++ event) := by
    rw [fields, hevent]
    rfl
  have hkeys := keys_nodup h
  refine ⟨_, h, ?_⟩
  rw [object?_storedValue (TraceRecord.read c) hkeys]
  set members : Members := Objects.Fields.get (storedFields c
    ([("v", some (.natural record.v)), ("seq", record.seq.map .natural),
      ("ts", some (.string record.ts))] ++ event)) with hmembers
  have hget : ∀ key, members key = if key = "v" then some (.natural record.v)
      else if key = "seq" then record.seq.map .natural
      else if key = "ts" then some (.string record.ts)
      else (storedFields c event).get key := by
    intro key
    rw [hmembers]
    simp [storedFields, Fields.get_cons, storedMember, Function.comp_def]
  have hseq : members.optional "seq" Json.natural? = some record.seq := by
    apply Members.optional_of_skipped Json.natural
    · rw [hget]
      simp
    · exact fun n _ => ⟨rfl, Json.natural_ne_null n⟩
  have hwithout : members.without ["v", "seq", "ts"] = (storedFields c event).get := by
    funext key
    rw [Members.without, hget]
    have hdisjoint := (List.nodup_append.mp (List.map_append ▸ hkeys)).2.2
    by_cases hown : key ∈ ["v", "seq", "ts"]
    · have habsent : key ∉ event.map Prod.fst := fun hmem =>
        hdisjoint key (by simpa using hown) key hmem rfl
      rw [if_pos hown, storedFields_get, Fields.get_eq_none_of_not_mem habsent]
      rfl
    · simp only [List.mem_cons, List.not_mem_nil, or_false, not_or] at hown
      simp [hown]
  simp only [read, hseq, hwithout, Members.required, hget]
  cases TraceEvent.read c (storedFields c event).get with
  | none => simp
  | some e => simp

/-! ### One session -/

namespace Session

/-- The records of a session are numbered, and each has its line. -/
structure Written (c : Codec) (s : Session) : Prop where
  /-- The sequence is gapless. -/
  numbered : s.records.map TraceRecord.seq = (List.range s.records.length).map some
  next : s.seq = s.records.length
  lines : s.records.map (writeRecord c) = s.lines.map some

theorem written_empty (c : Codec) : Written c empty := ⟨rfl, rfl, rfl⟩

/-- An accepted event appends its record and the line of it; a refused one
    appends nothing. -/
theorem write_cases (c : Codec) (s : Session) (e : Emission) :
    (s.write c e).1 = s ∨ (s.write c e).1 = { s with failed := true } ∨
      ∃ line, writeRecord c (.new e.event (some s.seq) e.ts) = some line ∧
        (s.write c e).1 = { s with
          seq := s.seq + 1
          records := s.records ++ [.new e.event (some s.seq) e.ts]
          lines := s.lines ++ [line] } := by
  unfold write
  simp only
  split
  · exact .inl rfl
  · split
    · next line hline =>
      split
      · exact .inr (.inr ⟨line, hline, rfl⟩)
      · exact .inr (.inl rfl)
    · exact .inr (.inl rfl)

theorem written_emit {c : Codec} {s : Session} (h : Written c s) (e : Emission) :
    Written c (s.emit c e) := by
  unfold emit
  split
  · exact h
  · obtain heq | heq | ⟨line, hline, heq⟩ := write_cases c s e
    · rw [heq]
      exact h
    · rw [heq]
      exact ⟨h.numbered, h.next, h.lines⟩
    · rw [heq]
      constructor
      · simp [h.numbered, TraceRecord.new, List.range_succ, h.next]
      · simp [h.next]
      · simp [h.lines, hline]

/-- Every session is written. -/
theorem written_run (c : Codec) (emissions : List Emission) : Written c (run c emissions) := by
  have hfold : ∀ s, Written c s → Written c (emissions.foldl (emit c) s) := by
    induction emissions with
    | nil => exact fun s hs => hs
    | cons e emissions ih => exact fun s hs => ih _ (written_emit hs e)
  exact hfold empty (written_empty c)

end Session

/-! ### Lines -/

/-- A text without line breaks. -/
def OneLine (text : List Char) : Prop := ∀ ch ∈ text, ch ≠ '\n' ∧ ch ≠ '\r'

instance (text : List Char) : Decidable (OneLine text) :=
  List.decidableBAll (fun ch => ch ≠ '\n' ∧ ch ≠ '\r') text

/-- The loop takes an ended line. -/
theorem splitLines_line {line : List Char} (hline : OneLine line) :
    ∀ (taken : List Char), OneLine taken → ∀ rest,
      splitLines taken (line ++ '\n' :: rest) = (taken.reverse ++ line) :: splitLines [] rest := by
  induction line with
  | nil =>
    intro taken htaken rest
    rw [List.nil_append, List.append_nil]
    cases taken with
    | nil => rfl
    | cons ch taken =>
      have hcr : ch ≠ '\r' := (htaken ch List.mem_cons_self).2
      rw [splitLines]
      simpa using hcr
  | cons ch line ih =>
    intro taken htaken rest
    have hch := hline ch List.mem_cons_self
    have hrest := ih (fun x hx => hline x (List.mem_cons_of_mem ch hx))
      (ch :: taken) (List.forall_mem_cons.mpr ⟨hch, htaken⟩) rest
    have hstep : splitLines taken (ch :: (line ++ '\n' :: rest)) =
        splitLines (ch :: taken) (line ++ '\n' :: rest) := by
      rw [splitLines]
      · exact fun heq => absurd heq hch.1
      · exact fun _ _ heq => absurd heq hch.1
    rw [List.cons_append, hstep, hrest]
    simp

/-- The lines that were ended one by one are found again. -/
theorem splitLines_jsonl {lines : List String} (h : ∀ line ∈ lines, OneLine line.toList) :
    splitLines [] (String.join (lines.map fun line => line ++ "\n")).toList =
      lines.map String.toList := by
  induction lines with
  | nil => rfl
  | cons line lines ih =>
    have hrest := ih fun x hx => h x (List.mem_cons_of_mem line hx)
    have hline := splitLines_line (h line List.mem_cons_self) []
      (fun _ hx => absurd hx List.not_mem_nil)
      (String.join (lines.map fun line => line ++ "\n")).toList
    rw [hrest] at hline
    simpa using hline

/-! ### The tree of a transcript -/

/-- The tree does not depend on prompts. -/
theorem reconstructTree_stored (c : Codec) (records : List TraceRecord) :
    reconstructTree (records.map (TraceRecord.stored c)) = reconstructTree records := by
  have hstart : ∀ nodes (record : TraceRecord),
      startNode nodes (record.stored c) = startNode nodes record := by
    rintro nodes ⟨v, seq, ts, event⟩
    cases event <;> rfl
  have hcharge : ∀ acc (record : TraceRecord),
      chargeNode acc (record.stored c) = chargeNode acc record := by
    rintro acc ⟨v, seq, ts, event⟩
    cases event <;> rfl
  have hend : ∀ nodes (record : TraceRecord),
      endNode nodes (record.stored c) = endNode nodes record := by
    rintro nodes ⟨v, seq, ts, event⟩
    cases event <;> rfl
  have hcollect : collectNodes (records.map (TraceRecord.stored c)) = collectNodes records := by
    unfold collectNodes
    simp only [List.foldlM_map, List.foldl_map, hstart, hcharge, hend]
  unfold reconstructTree
  rw [hcollect]

/-- What the JSON and time libraries do with the records of a session. -/
structure Supports (c : Codec) (records : List TraceRecord) : Prop where
  null : c.print .null = "null"
  /-- Print and parse are inverse. -/
  inverse : ∀ record ∈ records, ∀ fields, record.fields c = some fields →
    c.parse (c.print (storedValue c (.ofFields fields))) =
      some (storedValue c (.ofFields fields))
  /-- Compact output escapes every line break. -/
  compact : ∀ record ∈ records, ∀ line, writeRecord c record = some line → OneLine line.toList
  /-- The text of an object begins with a brace. -/
  brace : ∀ record ∈ records, ∀ line, writeRecord c record = some line → '{' ∈ line.toList
  time : ∀ record ∈ records, record.event.Timed c

/-- A line is read as the event is from its fields. -/
theorem readRecord_eq {c : Codec} {records : List TraceRecord} (h : Supports c records)
    {record : TraceRecord} (hmem : record ∈ records) {line : String}
    (hline : writeRecord c record = some line) :
    ∃ event, record.event.fields c = some event ∧
      readRecord c line = (TraceEvent.read c (storedFields c event).get).map fun e =>
        { record with event := e } := by
  obtain ⟨fields, hfields, rfl⟩ := Option.map_eq_some_iff.mp hline
  obtain ⟨event, hevent, -⟩ := Option.map_eq_some_iff.mp hfields
  obtain ⟨own, hown, hread⟩ := TraceRecord.read_storedValue c hevent
  obtain rfl := Option.some.inj (hown.symm.trans hfields)
  refine ⟨event, hevent, ?_⟩
  rw [readRecord, h.inverse record hmem own hfields, Option.bind_some, hread]

/-- A line is read back as its record exactly if the event is one that reads back. -/
theorem readRecord_iff {c : Codec} {records : List TraceRecord} (h : Supports c records)
    {record : TraceRecord} (hmem : record ∈ records) {line : String}
    (hline : writeRecord c record = some line) :
    readRecord c line = some (record.stored c) ↔ record.event.ReadsBack := by
  obtain ⟨event, hevent, hread⟩ := readRecord_eq h hmem hline
  rw [hread, ← TraceEvent.read_stored c hevent (h.time record hmem) h.null]
  obtain ⟨v, seq, ts, recorded⟩ := record
  cases TraceEvent.read c (storedFields c event).get with
  | none => simp [TraceRecord.stored]
  | some e => simp [TraceRecord.stored]

/-- The line of a structured answer is not read. -/
theorem readRecord_value {c : Codec} {records : List TraceRecord} (h : Supports c records)
    {record : TraceRecord} (hmem : record ∈ records) {line : String}
    (hline : writeRecord c record = some line) {outcome : AgentOutcome} {raw : String}
    (hrecord : record.event = .nodeEnd outcome) (hvalue : outcome.answer = .value raw) :
    readRecord c line = none := by
  obtain ⟨event, hevent, hread⟩ := readRecord_eq h hmem hline
  rw [hrecord] at hevent
  obtain ⟨own, hown, rfl⟩ := Option.map_eq_some_iff.mp hevent
  rw [hread, TraceEvent.read_nodeEnd c hown, hvalue]
  rfl

/-- Each line of a transcript is read on its own. -/
theorem reconstructJsonl_jsonl {c : Codec} {s : Session} (hwritten : s.Written c)
    (h : Supports c s.records) :
    reconstructJsonl c s.jsonl =
      match s.lines.mapM (readRecord c) with
      | none => some (.error .json)
      | some records => reconstructTree records := by
  have hrecord : ∀ line ∈ s.lines, ∃ record ∈ s.records, writeRecord c record = some line := by
    intro line hline
    have hmem : some line ∈ s.records.map (writeRecord c) := by
      rw [hwritten.lines]
      exact List.mem_map_of_mem hline
    exact List.mem_map.mp hmem
  have hlines : splitLines [] s.jsonl.toList = s.lines.map String.toList := by
    apply splitLines_jsonl
    intro line hline
    obtain ⟨record, hmem, hwrite⟩ := hrecord line hline
    exact h.compact record hmem line hwrite
  have hfilter : (s.lines.map String.toList).filter (fun line => !line.all whiteSpace) =
      s.lines.map String.toList := by
    rw [List.filter_eq_self]
    intro text htext
    obtain ⟨line, hline, rfl⟩ := List.mem_map.mp htext
    obtain ⟨record, hmem, hwrite⟩ := hrecord line hline
    have hbrace := h.brace record hmem line hwrite
    simp only [Bool.not_eq_true', List.all_eq_false]
    exact ⟨'{', hbrace, by decide⟩
  have hread : (fun line => readRecord c (String.ofList line)) ∘ String.toList = readRecord c := by
    funext line
    exact congrArg (readRecord c) String.ofList_toList
  unfold reconstructJsonl
  simp only
  rw [hlines, hfilter, List.mapM_map]
  -- Each line is read as the string it is.
  generalize (fun line => readRecord c (String.ofList line)) ∘ String.toList = read at hread ⊢
  subst hread
  rfl

/-- The lines are read back as the records exactly if every record reads back. -/
theorem map_readRecord_iff {c : Codec} {records : List TraceRecord} {lines : List String}
    (hlines : records.map (writeRecord c) = lines.map some)
    (hiff : ∀ record ∈ records, ∀ line, writeRecord c record = some line →
      (readRecord c line = some (record.stored c) ↔ record.event.ReadsBack)) :
    lines.map (readRecord c) = records.map (fun record => some (record.stored c)) ↔
      ∀ record ∈ records, record.event.ReadsBack := by
  induction records generalizing lines with
  | nil =>
    obtain rfl : lines = [] := by simpa using hlines.symm
    simp
  | cons record records ih =>
    cases lines with
    | nil => cases hlines
    | cons line lines =>
      simp only [List.map_cons, List.cons.injEq] at hlines
      have hfirst := hiff record List.mem_cons_self line hlines.1
      have hrest := ih hlines.2 fun r hr => hiff r (List.mem_cons_of_mem record hr)
      simp only [List.map_cons, List.cons.injEq, List.forall_mem_cons, hfirst, hrest]

/-- Lines that are all read are read as a list. -/
theorem mapM_readRecord {c : Codec} {lines : List String} {records : List TraceRecord}
    (h : lines.map (readRecord c) = records.map some) :
    lines.mapM (readRecord c) = some records := by
  induction lines generalizing records with
  | nil =>
    obtain rfl : records = [] := by simpa using h.symm
    rfl
  | cons line lines ih =>
    cases records with
    | nil => cases h
    | cons record records =>
      simp only [List.map_cons, List.cons.injEq] at h
      simp [List.mapM_cons, h.1, ih h.2]

/-- A session is read back, line by line and as a tree, exactly if every record
    that the writer accepted is one that reads back. -/
theorem transcript_read_back (c : Codec) (emissions : List Emission)
    (h : Supports c (Session.run c emissions).records) :
    (reconstructJsonl c (Session.run c emissions).jsonl =
        reconstructTree (Session.run c emissions).records ∧
      (Session.run c emissions).lines.map (readRecord c) =
        (Session.run c emissions).records.map fun record => some (record.stored c)) ↔
      ∀ record ∈ (Session.run c emissions).records, record.event.ReadsBack := by
  have hwritten := Session.written_run c emissions
  have hlines := map_readRecord_iff hwritten.lines fun record hmem line =>
    readRecord_iff h hmem
  constructor
  · rintro ⟨-, hread⟩
    exact hlines.mp hread
  · intro hreads
    have hread := hlines.mpr hreads
    refine ⟨?_, hread⟩
    have hmapM : (Session.run c emissions).lines.mapM (readRecord c) =
        some ((Session.run c emissions).records.map (TraceRecord.stored c)) := by
      apply mapM_readRecord
      rw [hread, List.map_map]
      rfl
    rw [reconstructJsonl_jsonl hwritten h, hmapM]
    exact reconstructTree_stored c _

/-! ### A structured answer -/

/-- The line of a root that ends with an answer, in pieces before and after it. -/
def outcomeHead : List String := ["\x7b", "\"answer\":"]

def outcomeTail : List String :=
  [",\"node\":0,\"seq\":0,", "\"status\":\"completed\",",
    "\"ts\":\"2026-01-01T00:00:00.000Z\",", "\"turns\":1,\"type\":\"node_end\",",
    "\"usage_self\":\x7b\"cache_creation_input_tokens\":0,",
    "\"cache_read_input_tokens\":0,\"input_tokens\":1,", "\"output_tokens\":1\x7d,",
    "\"usage_subtree\":\x7b\"cache_creation_input_tokens\":0,",
    "\"cache_read_input_tokens\":0,\"input_tokens\":1,", "\"output_tokens\":1\x7d,",
    "\"v\":1\x7d"]

def outcomeLine (answer : String) : String :=
  String.join (outcomeHead ++ answer :: outcomeTail)

/-- The line is one line if the answer is, and it begins with a brace. -/
theorem outcomeLine_oneLine {answer : String} (h : OneLine answer.toList) :
    OneLine (outcomeLine answer).toList ∧ '\x7b' ∈ (outcomeLine answer).toList := by
  have hhead : ∀ piece ∈ outcomeHead, OneLine piece.toList := by decide +kernel
  have htail : ∀ piece ∈ outcomeTail, OneLine piece.toList := by decide +kernel
  rw [outcomeLine, String.toList_join]
  constructor
  · intro ch hch
    obtain ⟨piece, hpiece, hmem⟩ := List.mem_flatMap.mp hch
    rw [List.mem_append, List.mem_cons] at hpiece
    obtain hpiece | rfl | hpiece := hpiece
    · exact hhead piece hpiece ch hmem
    · exact h ch hmem
    · exact htail piece hpiece ch hmem
  · have hbrace : '\x7b' ∈ ("\x7b" : String).toList := by decide +kernel
    exact List.mem_flatMap.mpr ⟨"\x7b", List.mem_append_left _ List.mem_cons_self, hbrace⟩

/-- The end of a root. -/
def outcomeOf (answer : Conversation.Answer) : AgentOutcome :=
  ⟨0, .completed, answer, ⟨1, 1, 0, 0⟩, ⟨1, 1, 0, 0⟩, 1⟩

def outcomeRecord (answer : Conversation.Answer) : TraceRecord :=
  .new (.nodeEnd (outcomeOf answer)) (some 0) "2026-01-01T00:00:00.000Z"

def outcomeEmission (answer : Conversation.Answer) : Emission :=
  ⟨.nodeEnd (outcomeOf answer), "2026-01-01T00:00:00.000Z", true⟩

/-- The libraries on a transcript of one line, with its value. -/
def lineCodec (line : String) (value : Json) : Codec where
  print
    | .object _ => line
    | _ => "null"
  parse text :=
    if text = line then some value else if text = "5" then some (.integer 5) else none
  printTime _ := ""
  parseTime _ := none
  digest := id

/-- The session of one line, with the libraries on it. -/
theorem lineCodec_run (line : String) (answer : Conversation.Answer) {fields : Kyora.Fields}
    (hfields : ∀ value, (outcomeRecord answer).fields (lineCodec line value) = some fields)
    (hline : OneLine line.toList ∧ '\x7b' ∈ line.toList) :
    ∃ value, Session.run (lineCodec line value) [outcomeEmission answer] =
        ⟨1, false, [outcomeRecord answer], [line]⟩ ∧
      Supports (lineCodec line value) [outcomeRecord answer] := by
  have hwrite : ∀ value, writeRecord (lineCodec line value) (outcomeRecord answer) = some line := by
    intro value
    rw [writeRecord, hfields value]
    rfl
  refine ⟨storedValue (lineCodec line .null) (.ofFields fields), ?_, ?_⟩
  · have hwritten := hwrite (storedValue (lineCodec line .null) (.ofFields fields))
    unfold outcomeRecord at hwritten
    simp [Session.run, Session.emit, Session.write, Session.empty, outcomeEmission,
      TraceEvent.ephemeral, hwritten]
    rfl
  · constructor
    · rfl
    · rintro record hmem own hown
      obtain rfl := List.mem_singleton.mp hmem
      obtain rfl := Option.some.inj ((hfields _).symm.trans hown)
      exact if_pos rfl
    · rintro record hmem text htext
      obtain rfl := List.mem_singleton.mp hmem
      obtain rfl := Option.some.inj ((hwrite _).symm.trans htext)
      exact hline.1
    · rintro record hmem text htext
      obtain rfl := List.mem_singleton.mp hmem
      obtain rfl := Option.some.inj ((hwrite _).symm.trans htext)
      exact hline.2
    · rintro record hmem
      obtain rfl := List.mem_singleton.mp hmem
      trivial

/-- The root ends with a text: its line is read back, and the tree with it. -/
theorem transcript_read_back_text :
    ∃ c, (Session.run c [outcomeEmission (.text "done")]).records.length = 1 ∧
      reconstructJsonl c (Session.run c [outcomeEmission (.text "done")]).jsonl =
        reconstructTree (Session.run c [outcomeEmission (.text "done")]).records := by
  obtain ⟨value, hrun, hsupports⟩ := lineCodec_run (outcomeLine "\x7b\"text\":\"done\"\x7d")
    (.text "done") (fun _ => rfl) (outcomeLine_oneLine (by decide +kernel))
  generalize lineCodec (outcomeLine "\x7b\"text\":\"done\"\x7d") value = c at hrun hsupports
  refine ⟨c, ?_, ?_⟩
  · rw [hrun]
    rfl
  · have h := transcript_read_back c [outcomeEmission (.text "done")] (by
      rw [hrun]
      exact hsupports)
    refine (h.mpr ?_).1
    rw [hrun]
    intro record hmem
    obtain rfl := List.mem_singleton.mp hmem
    exact ⟨"done", rfl⟩

/-- The root ends with the structured answer `5`. The writer accepts the record,
    but neither its line nor, because of it, the transcript is read back, while
    the record itself has a tree. -/
theorem transcript_read_back_value :
    ∃ c, Supports c (Session.run c [outcomeEmission (.value "5")]).records ∧
      (Session.run c [outcomeEmission (.value "5")]).records = [outcomeRecord (.value "5")] ∧
      (Session.run c [outcomeEmission (.value "5")]).lines.map (readRecord c) = [none] ∧
      reconstructJsonl c (Session.run c [outcomeEmission (.value "5")]).jsonl =
        some (.error .json) ∧
      reconstructTree (Session.run c [outcomeEmission (.value "5")]).records =
        some (.ok []) := by
  obtain ⟨value, hrun, hsupports⟩ := lineCodec_run (outcomeLine "\x7b\"value\":5\x7d")
    (.value "5") (fun _ => rfl) (outcomeLine_oneLine (by decide +kernel))
  generalize lineCodec (outcomeLine "\x7b\"value\":5\x7d") value = c at hrun hsupports
  refine ⟨c, ?_⟩
  have hwritten := Session.written_run c [outcomeEmission (.value "5")]
  have hread : (Session.run c [outcomeEmission (.value "5")]).lines.map (readRecord c) =
      [none] := by
    have hlines := hwritten.lines
    rw [hrun] at hlines ⊢
    have hline := (List.cons.inj hlines).1
    exact congrArg (· :: []) (readRecord_value hsupports List.mem_cons_self hline rfl rfl)
  have hjsonl := reconstructJsonl_jsonl hwritten (by
    rw [hrun]
    exact hsupports)
  rw [hrun] at hread hjsonl ⊢
  refine ⟨hsupports, rfl, hread, ?_, rfl⟩
  rw [hjsonl]
  simp only [List.map_cons, List.map_nil, List.cons.injEq] at hread
  simp [List.mapM_cons, hread.1]

end Kyora.Trace
