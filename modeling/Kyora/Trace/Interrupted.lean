import Kyora.Trace.Readback
import Kyora.Trace.Reconstruct

/-! # Interrupted transcripts

  A run that stops in the middle of a write leaves complete lines and a fragment
  of one more. `reconstruct_jsonl` takes the fragment for a line: it reads such a
  transcript only when the fragment is empty.
-/

namespace Kyora.Trace

open Objects (Fields.get_cons)

/-! ### Errors of the reconstruction -/

/-- Whatever fails does so with a message. -/
def Bails {α : Type} (x : Except ReadError α) : Prop :=
  ∀ error, x = .error error → ∃ message, error = .bail message

namespace Bails

variable {α β : Type}

theorem ok (a : α) : Bails (.ok a) := by
  intro error h
  cases h

theorem bail (message : String) : Bails (.error (.bail message) : Except ReadError α) := by
  intro error h
  cases h
  exact ⟨message, rfl⟩

theorem bind {x : Except ReadError α} {f : α → Except ReadError β} (hx : Bails x)
    (hf : ∀ a, Bails (f a)) : Bails (x >>= f) := by
  intro error h
  cases x with
  | error first =>
    cases h
    exact hx error rfl
  | ok a => exact hf a error h

theorem map {x : Except ReadError α} (hx : Bails x) (f : α → β) : Bails (x.map f) := by
  intro error h
  cases x with
  | error first =>
    cases h
    exact hx error rfl
  | ok a => cases h

theorem foldlM {f : β → α → Except ReadError β} (hf : ∀ b a, Bails (f b a)) (xs : List α) :
    ∀ b, Bails (xs.foldlM f b) := by
  induction xs with
  | nil => exact fun b => ok b
  | cons x xs ih =>
    intro b
    rw [List.foldlM_cons]
    exact (hf b x).bind ih

theorem forM {f : α → Except ReadError PUnit} (hf : ∀ a, Bails (f a)) (xs : List α) :
    Bails (xs.forM f) := by
  induction xs with
  | nil => exact ok _
  | cons x xs ih =>
    show Bails (f x >>= fun _ => xs.forM f)
    exact (hf x).bind fun _ => ih

end Bails

theorem startNode_bails (nodes : Nodes) (record : TraceRecord) :
    Bails (startNode nodes record) := by
  unfold startNode
  cases record.event with
  | nodeStart start =>
    simp only
    cases nodes.insert start.node start.entry with
    | some nodes => exact .ok nodes
    | none => exact .bail _
  | _ => exact .ok nodes

theorem checkParents_bails (nodes : Nodes) : Bails (checkParents nodes) := by
  unfold checkParents
  split
  · exact .bail _
  · exact .ok ()

theorem checkCycle_bails (nodes : Nodes) :
    ∀ fuel seen next, Bails (checkCycle nodes fuel seen next) := by
  intro fuel
  induction fuel with
  | zero =>
    intro seen next
    cases next with
    | none => exact .ok ()
    | some id => exact .bail _
  | succ fuel ih =>
    intro seen next
    cases next with
    | none => exact .ok ()
    | some id =>
      rw [checkCycle]
      split
      · exact .bail _
      · exact ih _ _

/-- No record is malformed for the reconstruction itself. -/
theorem reconstructTree_bails (records : List TraceRecord) :
    reconstructTree records ≠ some (.error .json) := by
  have hcollect : Bails (collectNodes records) :=
    (Bails.foldlM startNode_bails records []).map _
  have hchecked : Bails (checkedNodes records) := by
    refine hcollect.bind fun nodes => (checkParents_bails nodes).bind fun _ => ?_
    exact (Bails.forM (fun x => checkCycle_bails nodes _ _ _) nodes).bind fun _ => .ok nodes
  rw [reconstructTree_eq]
  intro h
  cases hresult : checkedNodes records with
  | error error =>
    obtain ⟨message, rfl⟩ := hchecked error hresult
    rw [hresult] at h
    cases h
  | ok nodes =>
    rw [hresult] at h
    obtain ⟨forest, -, hforest⟩ := Option.map_eq_some_iff.mp h
    cases hforest

/-! ### What a line is read as -/

/-- Events that add the same to the tree. -/
structure TraceEvent.Alike (event event' : TraceEvent) : Prop where
  start : ∀ nodes v seq ts,
    startNode nodes ⟨v, seq, ts, event⟩ = startNode nodes ⟨v, seq, ts, event'⟩
  charge : ∀ acc v seq ts,
    chargeNode acc ⟨v, seq, ts, event⟩ = chargeNode acc ⟨v, seq, ts, event'⟩
  close : ∀ nodes v seq ts,
    endNode nodes ⟨v, seq, ts, event⟩ = endNode nodes ⟨v, seq, ts, event'⟩

theorem TraceEvent.Alike.refl (event : TraceEvent) : event.Alike event :=
  ⟨fun _ _ _ _ => rfl, fun _ _ _ _ => rfl, fun _ _ _ _ => rfl⟩

/-- The answer of an event that ends a node is text. -/
def TraceEvent.Textual (event : TraceEvent) : Prop :=
  ∀ outcome, event = .nodeEnd outcome → ∃ text, outcome.answer = .text text

/-- An event with no structured answer is read back as one that adds the same to
    the tree, whether or not it reads back itself. -/
theorem TraceEvent.read_alike (c : Codec) {event : TraceEvent} {fields : Kyora.Fields}
    (h : event.fields c = some fields) (htime : event.Timed c) (hnull : c.print .null = "null")
    (htext : event.Textual) :
    ∃ event', read c (storedFields c fields).get = some event' ∧ event'.Alike event := by
  -- Only prompts and stop reasons can be read as something else.
  by_cases hreads : event.ReadsBack
  · refine ⟨event.stored c, (read_stored c h htime hnull).mpr hreads, ?_⟩
    cases event with
    | nodeStart start => exact ⟨fun _ _ _ _ => rfl, fun _ _ _ _ => rfl, fun _ _ _ _ => rfl⟩
    | _ => exact .refl _
  · cases event with
    | nodeStart start =>
      have hother : ∀ key, key ≠ "prompt" →
          (storedFields c fields).get key = fields.get key := by
        intro key hkey
        have hsame : storedMember c key = id := funext fun value => if_neg hkey
        rw [storedFields_get, hsame, Option.map_id, id]
      have hnone : Members.optional (storedFields c fields).get "prompt" some = some none := by
        have hprompt : start.prompt = some .null := not_not.mp hreads
        obtain rfl := Option.some.inj h
        have hstored : storedPrompt c .null = .null := (storedPrompt_eq_null_iff hnull _).mpr rfl
        unfold Members.optional
        rw [storedFields_get]
        simp [Fields.get_cons, storedMember, hprompt, Json.option, hstored]
      exact ⟨_, NodeStart.read_of h hother hnone,
        fun _ _ _ _ => rfl, fun _ _ _ _ => rfl, fun _ _ _ _ => rfl⟩
    | attemptEnd settled =>
      have hsame : storedFields c fields = fields := by
        obtain rfl := Option.some.inj h
        exact storedFields_eq c (by simp)
      rw [hsame]
      exact ⟨_, AttemptEnd.read_of h fun _ => rfl,
        fun _ _ _ _ => rfl, fun _ _ _ _ => rfl, fun _ _ _ _ => rfl⟩
    | nodeEnd outcome => exact absurd (htext outcome rfl) hreads
    | _ => exact absurd trivial hreads

section alike

variable {α β : Type} {R : α → α → Prop} {xs ys : List α}

theorem foldl_congr_forall₂ {f : β → α → β} (h : List.Forall₂ R xs ys)
    (hf : ∀ b x y, R x y → f b x = f b y) : ∀ b, xs.foldl f b = ys.foldl f b := by
  induction h with
  | nil => exact fun b => rfl
  | cons hxy hrest ih =>
    intro b
    rw [List.foldl_cons, List.foldl_cons, hf b _ _ hxy]
    exact ih _

theorem foldlM_congr_forall₂ {f : β → α → Except ReadError β} (h : List.Forall₂ R xs ys)
    (hf : ∀ b x y, R x y → f b x = f b y) : ∀ b, xs.foldlM f b = ys.foldlM f b := by
  induction h with
  | nil => exact fun b => rfl
  | cons hxy hrest ih =>
    intro b
    rw [List.foldlM_cons, List.foldlM_cons, hf b _ _ hxy]
    exact congrArg _ (funext ih)

end alike

/-- Records whose events are alike have the same tree. -/
theorem reconstructTree_alike {records records' : List TraceRecord}
    (h : List.Forall₂ (fun r r' => r.event.Alike r'.event) records records') :
    reconstructTree records = reconstructTree records' := by
  have hstart := foldlM_congr_forall₂  h
    fun nodes r r' hr => hr.start nodes r.v r.seq r.ts
  have hcharge := foldl_congr_forall₂  h
    fun acc r r' hr => hr.charge acc r.v r.seq r.ts
  have hend := foldl_congr_forall₂  h
    fun nodes r r' hr => hr.close nodes r.v r.seq r.ts
  have hcollect : collectNodes records = collectNodes records' := by
    unfold collectNodes
    simp only [hstart, hcharge, hend]
  unfold reconstructTree
  rw [hcollect]

/-! ### The last line -/

/-- What the JSON library does with a text that is cut off. -/
structure CutOff (c : Codec) (line : String) : Prop where
  /-- Compact output escapes every line break. -/
  compact : OneLine line.toList
  /-- The text of an object begins with a brace. -/
  brace : line.toList.head? = some '\x7b'
  /-- A text that ends before its object does is refused. -/
  refused : ∀ part, part <+: line.toList → part ≠ line.toList → c.parse (.ofList part) = none

/-- Complete lines are taken as they are, and what follows them on its own. -/
theorem splitLines_append {lines : List String} (h : ∀ line ∈ lines, OneLine line.toList)
    (rest : List Char) :
    splitLines [] ((String.join (lines.map fun line => line ++ "\n")).toList ++ rest) =
      lines.map String.toList ++ splitLines [] rest := by
  induction lines with
  | nil => simp
  | cons line lines ih =>
    have hrest := ih fun x hx => h x (List.mem_cons_of_mem line hx)
    have hline := splitLines_line (h line List.mem_cons_self) []
      (fun _ hx => absurd hx List.not_mem_nil)
      ((String.join (lines.map fun line => line ++ "\n")).toList ++ rest)
    rw [hrest] at hline
    simpa using hline

/-- A fragment is a line of its own. -/
theorem splitLines_fragment {fragment : List Char} (h : OneLine fragment) :
    ∀ taken, taken ≠ [] ∨ fragment ≠ [] →
      splitLines taken fragment = [taken.reverse ++ fragment] := by
  induction fragment with
  | nil =>
    intro taken hne
    cases taken with
    | nil => simp at hne
    | cons ch taken => simp [splitLines]
  | cons ch fragment ih =>
    intro taken _
    have hch := (h ch List.mem_cons_self).1
    have hrest := ih (fun x hx => h x (List.mem_cons_of_mem ch hx)) (ch :: taken)
      (Or.inl (List.cons_ne_nil ch taken))
    have hstep : splitLines taken (ch :: fragment) = splitLines (ch :: taken) fragment := by
      rw [splitLines]
      · exact fun heq => absurd heq hch
      · exact fun _ _ heq => absurd heq hch
    rw [hstep, hrest]
    simp

/-- What the reader makes of the text after the last line break. -/
def lastLine (fragment : List Char) : List String :=
  if fragment = [] then [] else [.ofList fragment]

/-- The lines of an interrupted transcript, one by one. -/
theorem reconstructJsonl_append {c : Codec} {lines : List String} {next : String}
    (hlines : ∀ line ∈ lines, OneLine line.toList ∧ '\x7b' ∈ line.toList)
    (hnext : CutOff c next) {fragment : List Char} (hfragment : fragment <+: next.toList) :
    reconstructJsonl c (String.join (lines.map fun line => line ++ "\n") ++ .ofList fragment) =
      match (lines ++ lastLine fragment).mapM (readRecord c) with
      | none => some (.error .json)
      | some records => reconstructTree records := by
  have hsplit : splitLines []
      (String.join (lines.map fun line => line ++ "\n") ++ .ofList fragment).toList =
        (lines ++ lastLine fragment).map String.toList := by
    rw [String.toList_append, String.toList_ofList,
      splitLines_append fun line hline => (hlines line hline).1, List.map_append, lastLine]
    congr 1
    by_cases hempty : fragment = []
    · subst hempty
      rfl
    · have hone : OneLine fragment := fun ch hch => hnext.compact ch (hfragment.subset hch)
      rw [splitLines_fragment hone [] (Or.inr hempty), if_neg hempty]
      simp
  have hfilter : ((lines ++ lastLine fragment).map String.toList).filter
      (fun line => !line.all whiteSpace) = (lines ++ lastLine fragment).map String.toList := by
    rw [List.filter_eq_self]
    intro text htext
    have hbrace : '\x7b' ∈ text := by
      obtain ⟨line, hline, rfl⟩ := List.mem_map.mp htext
      rcases List.mem_append.mp hline with hline | hline
      · exact (hlines line hline).2
      · -- a fragment that is not empty has the first character of its object
        unfold lastLine at hline
        split at hline
        · exact absurd hline List.not_mem_nil
        · next hempty =>
          obtain rfl := List.mem_singleton.mp hline
          rw [String.toList_ofList]
          obtain ⟨ch, part, rfl⟩ := List.exists_cons_of_ne_nil hempty
          have hhead := hnext.brace
          obtain ⟨rest, hrest⟩ := hfragment
          rw [← hrest, List.cons_append, List.head?_cons] at hhead
          obtain rfl := Option.some.inj hhead
          exact List.mem_cons_self
    simp only [Bool.not_eq_true', List.all_eq_false]
    exact ⟨'\x7b', hbrace, by decide⟩
  have hread : (fun line => readRecord c (String.ofList line)) ∘ String.toList = readRecord c := by
    funext line
    exact congrArg (readRecord c) String.ofList_toList
  unfold reconstructJsonl
  simp only
  rw [hsplit, hfilter, List.mapM_map]
  generalize (fun line => readRecord c (String.ofList line)) ∘ String.toList = read at hread ⊢
  subst hread
  rfl

/-- The lines of records without structured answers are read as alike records. -/
theorem mapM_readRecord_alike {c : Codec} {records : List TraceRecord} {lines : List String}
    (h : Supports c records) (hlines : records.map (writeRecord c) = lines.map some)
    (htext : ∀ record ∈ records, record.event.Textual) :
    ∃ read, lines.mapM (readRecord c) = some read ∧
      List.Forall₂ (fun r r' => r.event.Alike r'.event) read records := by
  have hline : ∀ record ∈ records, ∀ line, writeRecord c record = some line →
      ∃ r, readRecord c line = some r ∧ r.event.Alike record.event := by
    intro record hmem line hwrite
    obtain ⟨event, hevent, hread⟩ := readRecord_eq h hmem hwrite
    obtain ⟨event', hevent', halike⟩ := TraceEvent.read_alike c hevent (h.time record hmem)
      h.null (htext record hmem)
    exact ⟨{ record with event := event' }, by rw [hread, hevent']; rfl, halike⟩
  clear h htext
  induction records generalizing lines with
  | nil =>
    obtain rfl : lines = [] := by simpa using hlines.symm
    exact ⟨[], rfl, .nil⟩
  | cons record records ih =>
    cases lines with
    | nil => cases hlines
    | cons line lines =>
      simp only [List.map_cons, List.cons.injEq] at hlines
      obtain ⟨r, hr, halike⟩ := hline record List.mem_cons_self line hlines.1
      obtain ⟨rest, hrest, hall⟩ := ih hlines.2
        fun x hx => hline x (List.mem_cons_of_mem record hx)
      exact ⟨r :: rest, by simp [List.mapM_cons, hr, hrest], .cons halike hall⟩

/-- One line that is not read is enough. -/
theorem mapM_readRecord_none {c : Codec} {lines : List String} {line : String}
    (hmem : line ∈ lines) (h : readRecord c line = none) : lines.mapM (readRecord c) = none := by
  induction lines with
  | nil => exact absurd hmem List.not_mem_nil
  | cons first lines ih =>
    rw [List.mapM_cons]
    rcases List.mem_cons.mp hmem with rfl | hrest
    · rw [h]
      rfl
    · rw [ih hrest]
      cases readRecord c first <;> rfl

/-- The first character of the text `done` as an answer, and the whole line. -/
def doneLine : String := outcomeLine "\x7b\"text\":\"done\"\x7d"

/-- The library of one line refuses its fragments. -/
theorem lineCodec_cutOff {line : String} (value : Json) (hline : OneLine line.toList)
    (hbrace : line.toList.head? = some '\x7b') : CutOff (lineCodec line value) line := by
  refine ⟨hline, hbrace, ?_⟩
  intro part hpart hproper
  have hne : String.ofList part ≠ line := by
    intro heq
    apply hproper
    rw [← heq, String.toList_ofList]
  have hfive : String.ofList part ≠ "5" := by
    intro heq
    have htext : part = ['5'] := by
      have h := congrArg String.toList heq
      rwa [String.toList_ofList] at h
    obtain ⟨rest, hrest⟩ := hpart
    rw [← hrest, htext, List.singleton_append, List.head?_cons] at hbrace
    exact absurd hbrace (by decide)
  show (if String.ofList part = line then some value
    else if String.ofList part = "5" then some (.integer 5) else none) = none
  rw [if_neg hne, if_neg hfive]

/-- The line begins with a brace, and does not end there. -/
theorem doneLine_eq : ∃ ch rest, doneLine.toList = '\x7b' :: ch :: rest := by
  have hbrace : ("\x7b" : String).toList = ['\x7b'] := rfl
  have hanswer : ("\"answer\":" : String).toList = '"' :: "answer\":".toList := rfl
  rw [doneLine, outcomeLine, String.toList_join, outcomeHead, List.cons_append, List.cons_append,
    List.flatMap_cons, List.flatMap_cons, hbrace, hanswer]
  exact ⟨_, _, rfl⟩

theorem doneLine_part : ['\x7b'] <+: doneLine.toList ∧ ['\x7b'] ≠ doneLine.toList := by
  obtain ⟨ch, rest, h⟩ := doneLine_eq
  rw [h]
  exact ⟨⟨ch :: rest, rfl⟩, by simp⟩

/-- The libraries on a transcript of one line. -/
theorem doneLine_supports :
    ∃ value, Supports (lineCodec doneLine value) [outcomeRecord (.text "done")] ∧
      writeRecord (lineCodec doneLine value) (outcomeRecord (.text "done")) = some doneLine ∧
      CutOff (lineCodec doneLine value) doneLine := by
  have hshape : OneLine doneLine.toList ∧ '\x7b' ∈ doneLine.toList :=
    outcomeLine_oneLine (by decide +kernel)
  obtain ⟨value, hrun, hsupports⟩ := lineCodec_run doneLine (.text "done") (fun _ => rfl) hshape
  obtain ⟨ch, rest, hbrace⟩ := doneLine_eq
  refine ⟨value, hsupports, ?_, lineCodec_cutOff value hshape.1 (congrArg List.head? hbrace)⟩
  have hlines := (Session.written_run (lineCodec doneLine value)
    [outcomeEmission (.text "done")]).lines
  rw [hrun] at hlines
  exact (List.cons.inj hlines).1

end Kyora.Trace
