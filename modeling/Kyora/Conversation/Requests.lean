import Kyora.Anthropic.Request
import Kyora.Conversation.History

/-! # Requests are well formed

  Every request of an agent carries a well-formed conversation, the history
  never changes what it holds, and the body built for the Messages API keeps
  the pairs.
-/

namespace Kyora.Conversation

open Anthropic (AnthropicConfig ModelCaps buildRequest buildRequest_shapes wireShape sent
  sent_paired sent_tools)

theorem Started.wellFormed {history : List Message} (h : Started history) :
    WellFormed (history.map shape) := by
  obtain ⟨first, rest, hsplit, hrole, -⟩ := h.starts
  exact ⟨h.paired.replies, shape first, rest.map shape, by rw [hsplit]; rfl, hrole⟩

/-- The first text of the user is replayed, so the body starts with it. -/
theorem Started.sent_starts {history : List Message} (h : Started history) :
    ∃ first rest, history.filterMap sent = first :: rest ∧ first.role = .user := by
  obtain ⟨first, rest, hsplit, hrole, htext⟩ := h.starts
  cases hfirst : sent first with
  | none =>
    have hother := Anthropic.sent_eq_none hfirst htext
    cases hother
  | some n =>
    refine ⟨n, rest.filterMap sent, ?_, ?_⟩
    · rw [hsplit, List.filterMap_cons_some hfirst]
    · rw [Anthropic.sent_eq_some hfirst]
      exact hrole

/-- The body of a request whose conversation has its results side by side with
    the tool uses. -/
structure Replayed (req : ModelRequest) (shapes : List Shape) : Prop extends Replies shapes where
  /-- No message that holds a tool block is dropped, and none is added. -/
  tools : shapes.filterMap Shape.tools = (req.messages.map shape).filterMap Shape.tools

theorem Replies.replayed {req : ModelRequest} (h : Replies (req.messages.map shape))
    (caps : ModelCaps) (acfg : AnthropicConfig) :
    Replayed req ((buildRequest req caps acfg).1.messages.map wireShape) := by
  rw [buildRequest_shapes]
  exact ⟨(sent_paired h.paired).replies, sent_tools req.messages⟩

/-- In every run, every request is well formed and keeps what was recorded,
    and so does the body built from any such conversation. -/
theorem requests_wellFormed (cfg : Config) {s t : State} {ls : List Label}
    (h : (conversation cfg).Reachable s) (hrun : (conversation cfg).run s ls = some t) :
    (∀ r ∈ s.requests, WellFormed (r.request.messages.map shape) ∧
      r.request.messages <+: t.history ∧
      ∀ (caps : ModelCaps) (acfg : AnthropicConfig),
        WellFormed ((buildRequest r.request caps acfg).1.messages.map wireShape)) ∧
    s.history <+: t.history ∧ s.requests <+: t.requests ∧
    ∀ (req : ModelRequest) (caps : ModelCaps) (acfg : AnthropicConfig),
      WellFormed (req.messages.map shape) →
      Replayed req ((buildRequest req caps acfg).1.messages.map wireShape) := by
  obtain ⟨hhistory, hrequests⟩ := grows_of_run hrun
  refine ⟨fun r hr => ?_, hhistory, hrequests, ?_⟩
  · obtain ⟨hstarted, hprefix⟩ := requested_of_reachable h r hr
    refine ⟨hstarted.wellFormed, hprefix.trans hhistory, fun caps acfg => ?_⟩
    have hreplayed := hstarted.paired.replies.replayed caps acfg
    refine ⟨hreplayed.toReplies, ?_⟩
    rw [buildRequest_shapes]
    exact hstarted.sent_starts
  · intro req caps acfg hwell
    exact hwell.toReplies.replayed caps acfg

/-- An agent with one tool that reads nothing. -/
def echoConfig : Config where
  limits := .default
  model := "model"
  system := "system"
  task := "task"
  tools := ⟨fun name => if name = "echo" then some ⟨fun _ => .ok (), true⟩ else none⟩
  specs := []
  options := ⟨none, none, false, none⟩
  maxTurns := 5
  output := none
  names := fun _ => ""
  print := fun _ => ""
  parse := fun _ => .error ""

/-- The task with one message delivered, and the first request. -/
def askedLabels : List Label :=
  [.opened ⟨[⟨0, 1, 0, .message, "hello", none, none⟩], 0, 0⟩, .request none]

/-- Two tool uses of one id, one of them with thinking that cannot be replayed
    before it; a delivery joins their results; the second request. -/
def echoedLabels : List Label :=
  [.responded ⟨[.thinking "plan" none, .toolUse "a" "echo" .null, .toolUse "a" "gone" .null],
      .toolUse, 0⟩ [],
    .tool none ⟨[.text "out"], false, none⟩ none,
    .tool none ⟨[], false, none⟩ none,
    .results none ⟨[⟨1, 1, 0, .message, "more", none, none⟩], 0, 2⟩,
    .decide none ⟨[], 0, 0⟩, .request none]

theorem requests_wellFormed_echoed : ∃ s t,
    (conversation echoConfig).run (conversation echoConfig).init (askedLabels ++ echoedLabels) =
      some s ∧
    (conversation echoConfig).run s [.failed .budget .cancelled] = some t ∧
    s.requests.map (fun r => r.request.messages.map shape) =
      [[⟨.user, [.text, .text]⟩],
        [⟨.user, [.text, .text]⟩, ⟨.assistant, [.other, .use "a", .use "a"]⟩,
          ⟨.user, [.result "a", .result "a", .text, .text]⟩]] ∧
    (∀ r ∈ s.requests, WellFormed (r.request.messages.map shape) ∧
      r.request.messages <+: t.history ∧
      ∀ (caps : ModelCaps) (acfg : AnthropicConfig),
        WellFormed ((buildRequest r.request caps acfg).1.messages.map wireShape) ∧
        Replayed r.request ((buildRequest r.request caps acfg).1.messages.map wireShape)) := by
  have hrun : (((conversation echoConfig).run (conversation echoConfig).init
      (askedLabels ++ echoedLabels)).bind fun s =>
        ((conversation echoConfig).run s [.failed .budget .cancelled]).map fun _ =>
          s.requests.map fun r => r.request.messages.map shape) =
      some [[⟨.user, [.text, .text]⟩],
        [⟨.user, [.text, .text]⟩, ⟨.assistant, [.other, .use "a", .use "a"]⟩,
          ⟨.user, [.result "a", .result "a", .text, .text]⟩]] := by decide +kernel
  obtain ⟨s, hs, heq⟩ := Option.bind_eq_some_iff.mp hrun
  obtain ⟨t, ht, heq⟩ := Option.map_eq_some_iff.mp heq
  obtain ⟨hall, -, -, hbody⟩ :=
    requests_wellFormed echoConfig (LTS.System.reachable_of_run hs) ht
  refine ⟨s, t, hs, ht, heq, fun r hr => ?_⟩
  obtain ⟨hwell, hprefix, hbuilt⟩ := hall r hr
  exact ⟨hwell, hprefix, fun caps acfg => ⟨hbuilt caps acfg, hbody _ caps acfg hwell⟩⟩

end Kyora.Conversation
