import Kyora.Shutdown.Order
import Kyora.Shutdown.Settlements

/-! # Replay of a run

  Every prefix of the records of a run reconstructs to the tree of the nodes
  that had started, with the ledger's accounts of those that had ended. The
  complete sequence gives the ledger's accounts of all nodes.
-/

namespace Kyora.Shutdown

open Attempts (Config)
open Trace (TraceEvent TraceRecord NodeStart AttemptEnd RecursionTree starts settlements endsOf
  spentBy forestRows reconstructTree)

/-! ### Prefixes can be replayed -/

theorem count_starts (i : NodeId) (es : List TraceEvent) :
    ((starts es).map NodeStart.node).count i = es.countP (isStartOf i) := by
  induction es with
  | nil => rfl
  | cons e es ih =>
    rw [List.countP_cons, ← ih]
    cases e with
    | nodeStart start =>
      show (start.node :: (starts es).map NodeStart.node).count i = _
      rw [List.count_cons]
      rfl
    | _ => rfl

theorem length_endsOf (i : NodeId) (es : List TraceEvent) :
    (endsOf i es).length = es.countP (isEndOf i) := by
  induction es with
  | nil => rfl
  | cons e es ih =>
    rw [List.countP_cons, ← ih]
    cases e with
    | nodeEnd outcome =>
      by_cases hi : i = outcome.node
      · have hends : endsOf i (.nodeEnd outcome :: es) = outcome :: endsOf i es := by
          simp only [endsOf, List.filterMap_cons, hi, if_true]
        have hone : isEndOf i (.nodeEnd outcome) = true := by
          rw [hi]
          exact beq_self_eq_true outcome.node
        rw [hends, hone, if_pos rfl, List.length_cons]
      · have hends : endsOf i (.nodeEnd outcome :: es) = endsOf i es := by
          simp only [endsOf, List.filterMap_cons, hi, if_false]
        have hnone : isEndOf i (.nodeEnd outcome) = false := beq_false_of_ne (Ne.symm hi)
        rw [hends, hnone, if_neg Bool.false_ne_true, Nat.add_zero]
    | _ => rfl

theorem mem_starts {es : List TraceEvent} {start : NodeStart} :
    start ∈ starts es ↔ TraceEvent.nodeStart start ∈ es := by
  unfold starts
  rw [List.mem_filterMap]
  constructor
  · rintro ⟨e, he, heq⟩
    cases e with
    | nodeStart start' =>
      obtain rfl := Option.some.inj heq
      exact he
    | _ => cases heq
  · intro h
    exact ⟨_, h, rfl⟩

theorem mem_endsOf {i : NodeId} {es : List TraceEvent} {outcome : AgentOutcome} :
    outcome ∈ endsOf i es ↔ TraceEvent.nodeEnd outcome ∈ es ∧ outcome.node = i := by
  unfold endsOf
  rw [List.mem_filterMap]
  constructor
  · rintro ⟨e, he, heq⟩
    cases e with
    | nodeEnd outcome' =>
      simp only at heq
      split at heq
      · next hi =>
        obtain rfl := Option.some.inj heq
        exact ⟨he, hi.symm⟩
      · cases heq
    | _ => cases heq
  · rintro ⟨h, rfl⟩
    refine ⟨_, h, ?_⟩
    simp only [if_true]

/-- Every prefix of the records of a run can be replayed. -/
theorem prefix_replayable {cfg : Config} {model : String} {s : State}
    (hs : (system cfg model).Reachable s) {p : List TraceEvent} (hp : p <+: s.trace) :
    Trace.Replayable p := by
  have hrecorded := recorded_of_reachable hs
  have hplaced := placed_of_reachable hs
  have hordered := (Ledger.matched_of_reachable (ledger_reachable hs)).tree.ordered
  constructor
  · rw [List.nodup_iff_count_le_one]
    intro i
    rw [count_starts]
    refine Nat.le_trans hp.sublist.countP_le ?_
    rw [hrecorded.starts i]
    exact Bool.toNat_le _
  · intro start hstart q hq
    obtain ⟨before, after, rfl⟩ := List.append_of_mem (mem_starts.mp hstart)
    obtain ⟨rest, hrest⟩ := hp
    rw [List.append_assoc, List.cons_append] at hrest
    obtain ⟨hlinks, hparent⟩ := (inOrder_of_reachable hs).starts before start _ hrest.symm
    obtain ⟨above, habove, hnode⟩ := hparent q hq
    refine ⟨?_, above, mem_starts.mpr (List.mem_append_left _ habove), hnode⟩
    rw [hq, hplaced.links] at hlinks
    exact (hordered _ _ hlinks).1
  · obtain ⟨rest, hrest⟩ := hp
    have hnodup := (settlements_of_reachable hs).nodup
    rw [← hrest, settlements_append, List.map_append] at hnodup
    exact (List.nodup_append.mp hnodup).1
  · intro i
    rw [length_endsOf]
    refine Nat.le_trans hp.sublist.countP_le ?_
    rw [hrecorded.ends i]
    exact Bool.toNat_le _

/-! ### What a replay says -/

/-- The forest of a prefix `p` of the records, against the ledger. -/
structure Replays (s : State) (p : List TraceEvent) (forest : List RecursionTree) : Prop where
  /-- Each start comes after that of the parent. -/
  order : ∀ (before : List TraceEvent) (start : NodeStart) (after : List TraceEvent),
    p = before ++ .nodeStart start :: after → ∀ q, start.parent = some q →
      ∃ above, .nodeStart above ∈ before ∧ above.node = q
  /-- The rows are the nodes started in it, each once and under its parent. -/
  nodes : ((forestRows none forest).map fun r => (r.2.id, r.1)).Perm
    ((starts p).map fun start => (start.node, start.parent))
  parents : ∀ r ∈ forestRows none forest, s.ledger.links r.2.id = some r.1
  /-- A node that ended in it has the ledger's usage and its turn count. -/
  ended : ∀ outcome, TraceEvent.nodeEnd outcome ∈ p →
    ∃ r ∈ forestRows none forest, ∃ n, r.2.id = outcome.node ∧
      (Ledger.usage s.ledger outcome.node).map Prod.fst = some r.2.usageSelf ∧
      s.nodes[outcome.node]? = some n ∧ r.2.turns = n.turnCount
  /-- Any other node has what its settled attempts spent. -/
  running : ∀ r ∈ forestRows none forest,
    (∀ outcome, TraceEvent.nodeEnd outcome ∈ p → outcome.node ≠ r.2.id) →
    r.2.usageSelf = spentBy r.2.id p

/-- The forest of the complete sequence has every node, with the ledger's usage. -/
structure Complete (s : State) (forest : List RecursionTree) : Prop where
  nodes : ∀ i < s.ledger.scopes.length, ∃ r ∈ forestRows none forest, r.2.id = i
  usage : ∀ r ∈ forestRows none forest,
    Ledger.usage s.ledger r.2.id = some (r.2.usageSelf, r.2.usageSubtree)

section Rows

variable {records : List TraceRecord} {nodes : Trace.Nodes} {forest : List RecursionTree}

/-- The row of a started node has the collected accounts of the node. -/
theorem row_of_start (h : Trace.Collected records nodes forest) {start : NodeStart}
    (hstart : start ∈ starts (records.map TraceRecord.event)) :
    ∃ r ∈ forestRows none forest, r.2.id = start.node := by
  obtain ⟨-, hmem, -⟩ := Trace.forest_rows h.keyed h.ordered.ranked h.roots h.built
  have hup : nodes.up start.node = some start.parent :=
    (Trace.up_eq_some h.keyed h.entries).mpr ⟨start, hstart, rfl, rfl⟩
  obtain ⟨r, hr, hid⟩ := List.mem_map.mp ((hmem start.node).mpr (by rw [hup]; rfl))
  exact ⟨r, hr, hid⟩

theorem start_of_row (h : Trace.Collected records nodes forest)
    {r : Option NodeId × RecursionTree} (hr : r ∈ forestRows none forest) :
    ∃ start ∈ starts (records.map TraceRecord.event), start.node = r.2.id ∧
      start.parent = r.1 ∧ r.2.usageSelf = (start.collected records).tree.usageSelf ∧
      r.2.turns = (start.collected records).tree.turns := by
  obtain ⟨hrows, -, -⟩ := Trace.forest_rows h.keyed h.ordered.ranked h.roots h.built
  obtain ⟨hbuilt, hup⟩ := hrows r hr
  obtain ⟨start, hstart, hnode, hparent⟩ := (Trace.up_eq_some h.keyed h.entries).mp hup
  have hentry : nodes.lookup start.node = some (start.collected records) := by
    apply (Objects.lookup_eq_some_iff h.keyed).mpr
    exact h.entries.mem_iff.mpr (List.mem_map.mpr ⟨start, hstart, rfl⟩)
  obtain ⟨e, he, hself, hturns⟩ := hbuilt.entry
  rw [hnode] at hentry
  obtain rfl := Option.some.inj (he.symm.trans hentry)
  exact ⟨start, hstart, hnode, hparent, hself, hturns⟩

end Rows

/-- The prefix of a run reconstructs, and says what the ledger says. -/
theorem replays_of_collected {cfg : Config} {model : String} {s : State}
    (hs : (system cfg model).Reachable s) {records : List TraceRecord}
    (hp : records.map TraceRecord.event <+: s.trace) {nodes : Trace.Nodes}
    {forest : List RecursionTree} (h : Trace.Collected records nodes forest) :
    Replays s (records.map TraceRecord.event) forest := by
  have hreplay := prefix_replayable hs hp
  have horder := inOrder_of_reachable hs
  obtain ⟨hrows, hmem, hnodup⟩ := Trace.forest_rows h.keyed h.ordered.ranked h.roots h.built
  constructor
  · intro before start after hcut
    obtain ⟨rest, hrest⟩ := hp
    rw [hcut, List.append_assoc, List.cons_append] at hrest
    exact (horder.starts before start _ hrest.symm).2
  · -- Both lists are free of repetitions and have the same members.
    apply (List.perm_ext_iff_of_nodup ?_ ?_).mpr
    · intro x
      constructor
      · intro hx
        obtain ⟨r, hr, rfl⟩ := List.mem_map.mp hx
        obtain ⟨start, hstart, hnode, hparent, -⟩ := start_of_row h hr
        exact List.mem_map.mpr ⟨start, hstart, by rw [hnode, hparent]⟩
      · intro hx
        obtain ⟨start, hstart, rfl⟩ := List.mem_map.mp hx
        obtain ⟨r, hr, hid⟩ := row_of_start h hstart
        have hup : nodes.up r.2.id = some start.parent :=
          (Trace.up_eq_some h.keyed h.entries).mpr ⟨start, hstart, hid.symm, rfl⟩
        have hsame : r.1 = start.parent := Option.some.inj ((hrows r hr).2.symm.trans hup)
        exact List.mem_map.mpr ⟨r, hr, by rw [hid, hsame]⟩
    · apply List.Nodup.of_map Prod.fst
      rw [List.map_map]
      exact hnodup
    · apply List.Nodup.of_map Prod.fst
      rw [List.map_map]
      exact hreplay.starts
  · intro r hr
    obtain ⟨start, hstart, hnode, hparent, -⟩ := start_of_row h hr
    obtain ⟨before, after, hcut⟩ := List.append_of_mem (mem_starts.mp hstart)
    obtain ⟨rest, hrest⟩ := hp
    rw [hcut, List.append_assoc, List.cons_append] at hrest
    rw [← (placed_of_reachable hs).links, ← hnode, ← hparent]
    exact (horder.starts before start _ hrest.symm).1
  · intro outcome hend
    obtain ⟨before, after, hcut⟩ := List.append_of_mem hend
    obtain ⟨rest, hrest⟩ := id hp
    rw [hcut, List.append_assoc, List.cons_append] at hrest
    -- The node started before it ended, so it has a row.
    obtain ⟨⟨start, hstart, hnode⟩, -⟩ := horder.ends before outcome _ hrest.symm
    have hmem : start ∈ starts (records.map TraceRecord.event) := by
      rw [mem_starts, hcut]
      exact List.mem_append_left _ hstart
    obtain ⟨r, hr, hid⟩ := row_of_start h hmem
    obtain ⟨start', -, hnode', -, hself, hturns⟩ := start_of_row h hr
    have hends : outcome ∈ endsOf start'.node (records.map TraceRecord.event) :=
      mem_endsOf.mpr ⟨hend, by rw [hnode', hid, hnode]⟩
    obtain ⟨-, hturns', hself'⟩ := Trace.collected_ended hreplay hends
    obtain ⟨n, hn, -, haccount⟩ := (final_of_reachable hs).recorded outcome (hp.subset hend)
    refine ⟨r, hr, n, hid.trans hnode, ?_, hn, ?_⟩
    · rw [haccount.usage, Option.map_some, hself, hself']
    · rw [hturns, hturns', haccount.turns]
  · intro r hr hrunning
    obtain ⟨start, hstart, hnode, -, hself, -⟩ := start_of_row h hr
    have hnone : endsOf start.node (records.map TraceRecord.event) = [] := by
      apply List.eq_nil_iff_forall_not_mem.mpr
      intro outcome hmem
      obtain ⟨hend, hsame⟩ := mem_endsOf.mp hmem
      exact hrunning outcome hend (hsame.trans hnode)
    rw [hself, (Trace.collected_running hreplay hnone).2, hnode]

/-- Once the run is over, the forest adds up as the ledger does. -/
theorem complete_of_collected {cfg : Config} {model : String} {s : State}
    (hs : (system cfg model).Reachable s) (hover : s.Over) {records : List TraceRecord}
    (hp : records.map TraceRecord.event = s.trace) {nodes : Trace.Nodes}
    {forest : List RecursionTree} (h : Trace.Collected records nodes forest) :
    Complete s forest := by
  have hplaced := placed_of_reachable hs
  have hrecorded := recorded_of_reachable hs
  have hconserved := Ledger.ledger_conservation cfg.limits (ledger_reachable hs)
  have hprefix : records.map TraceRecord.event <+: s.trace := by
    rw [hp]
  have hreplay := prefix_replayable hs hprefix
  obtain ⟨hrows, hmem, -⟩ := Trace.forest_rows h.keyed h.ordered.ranked h.roots h.built
  -- Every node of the ledger has started, under the parent it has there.
  have hup : ∀ i < s.ledger.scopes.length, nodes.up i = s.ledger.links i := by
    intro i hi
    rw [← hplaced.length] at hi
    have hn := List.getElem?_eq_getElem hi
    have hshut := hover.shut hs hn
    obtain ⟨start, hstart, rfl⟩ := hrecorded.mem_start hn
      (by rw [hshut]; exact fun hno => (nomatch hno))
    obtain ⟨before, after, hcut⟩ := List.append_of_mem hstart
    rw [← hplaced.links, ((inOrder_of_reachable hs).starts before start after hcut).1]
    exact (Trace.up_eq_some h.keyed h.entries).mpr
      ⟨start, mem_starts.mpr (hp ▸ hstart), rfl, rfl⟩
  have hknown : ∀ i, (nodes.up i).isSome → i < s.ledger.scopes.length := by
    intro i hi
    obtain ⟨link, hlink⟩ := Option.isSome_iff_exists.mp hi
    obtain ⟨start, hstart, rfl, -⟩ := (Trace.up_eq_some h.keyed h.entries).mp hlink
    rw [mem_starts, hp] at hstart
    obtain ⟨before, after, hcut⟩ := List.append_of_mem hstart
    apply Ledger.links_isSome.mp
    rw [← hplaced.links, ((inOrder_of_reachable hs).starts before start after hcut).1]
    rfl
  -- Each entry has what the ledger says its node used itself.
  have hown : ∀ i e, nodes.lookup i = some e →
      some e.tree.usageSelf = (Ledger.usage s.ledger i).map Prod.fst := by
    intro i e he
    have hi := hknown i (by rw [Trace.Nodes.up, he]; rfl)
    rw [← hplaced.length] at hi
    have hn := List.getElem?_eq_getElem hi
    obtain ⟨outcome, hend, hnode⟩ := hrecorded.mem_end hn (by rw [hover.shut hs hn]; rfl)
    obtain ⟨start, -, hpair⟩ := List.mem_map.mp
      (h.entries.mem_iff.mp ((Objects.lookup_eq_some_iff h.keyed).mp he))
    obtain ⟨rfl, rfl⟩ := Prod.mk.inj hpair
    have hends : outcome ∈ endsOf start.node (records.map TraceRecord.event) :=
      mem_endsOf.mpr ⟨by rw [hp]; exact hend, hnode⟩
    obtain ⟨-, -, hself⟩ := Trace.collected_ended hreplay hends
    obtain ⟨_, -, -, haccount⟩ := (final_of_reachable hs).recorded outcome hend
    rw [hself, ← hnode, haccount.usage, Option.map_some]
  have hsub : ∀ i, (nodes.lookup i).isSome → s.ledger.subtreeUsage i =
      ((Ledger.usage s.ledger i).map Prod.fst).getD 0 +
        ((nodes.children (some i)).map s.ledger.subtreeUsage).sum := by
    intro i hi
    have hlt := hknown i (by rwa [Trace.Nodes.up, Option.isSome_map])
    have hscope := List.getElem?_eq_getElem hlt
    -- The children in the map are those of the ledger, whatever their order.
    have hnodup : (s.ledger.children i).Nodup := List.nodup_range.filter _
    have hperm : (nodes.children (some i)).Perm (s.ledger.children i) := by
      apply (List.perm_ext_iff_of_nodup (h.keyed.nodup_children _) hnodup).mpr
      intro c
      rw [h.keyed.mem_children, Ledger.mem_children]
      show nodes.up c = some (some i) ↔ s.ledger.links c = some (some i)
      constructor
      · intro hc
        rw [← hup c (hknown c (by rw [hc]; rfl))]
        exact hc
      · intro hc
        rw [hup c (Ledger.links_isSome.mp (by rw [hc]; rfl))]
        exact hc
    rw [(hperm.map s.ledger.subtreeUsage).sum_eq]
    have hchildren := hconserved.children hscope
    unfold Ledger.State.subtreeUsage Ledger.usage
    rw [hscope]
    exact hchildren
  constructor
  · intro i hi
    have hlink : (nodes.up i).isSome := by
      rw [hup i hi]
      exact Ledger.links_isSome.mpr hi
    obtain ⟨r, hr, hid⟩ := List.mem_map.mp ((hmem i).mpr hlink)
    exact ⟨r, hr, hid⟩
  · intro r hr
    obtain ⟨hbuilt, hlink⟩ := hrows r hr
    have hlt := hknown r.2.id (by rw [hlink]; rfl)
    obtain ⟨scope, hscope⟩ : ∃ scope, s.ledger.scopes[r.2.id]? = some scope :=
      ⟨_, List.getElem?_eq_getElem hlt⟩
    have husage : Ledger.usage s.ledger r.2.id = some (scope.own, scope.usage) := by
      rw [Ledger.usage, hscope, Option.map_some]
    obtain ⟨e, he, hself, -⟩ := hbuilt.entry
    have hsame := hown r.2.id e he
    rw [husage, Option.map_some] at hsame
    have hsubtree := hbuilt.subtree_unique hsub fun i e he => by
      rw [← hown i e he, Option.getD_some]
    rw [Ledger.State.subtreeUsage, husage] at hsubtree
    rw [husage, hself, hsubtree, Option.some.inj hsame]
    rfl

/-- Replay agrees with the ledger. For every run and every prefix of its records,
    reconstruction succeeds; a prefix that is all there is after the run is over
    has all the accounts. -/
theorem replay_agrees (cfg : Config) (model : String) {s : State}
    (hs : (system cfg model).Reachable s) {records : List TraceRecord}
    (hp : records.map TraceRecord.event <+: s.trace) :
    ∃ forest, reconstructTree records = some (.ok forest) ∧
      Replays s (records.map TraceRecord.event) forest ∧
      (s.Over → records.map TraceRecord.event = s.trace → Complete s forest) := by
  obtain ⟨nodes, forest, hforest, hcollected⟩ :=
    Trace.reconstructTree_ok (prefix_replayable hs hp)
  exact ⟨forest, hforest, replays_of_collected hs hp hcollected,
    fun hover heq => complete_of_collected hs hover heq hcollected⟩

/-- The child's attempt is settled for its usage; the root's is dropped while it
    streams, and settled for its reservation without a record. -/
def replayLabels (start : NodeStart) (payload : AttemptEnd) : List Label :=
  [.start 0 start, .turn 0, .spawnAgent 0 none "sub" fun _ => true, .call 0 8000,
    .attempt (.resolved 0 none 100), .attempt (.acquire 0), .attempt (.reserve 0),
    .attempt (.emitted 0), .attempt (.dispatch 0), .start 1 start, .call 1 8000,
    .attempt (.resolved 1 none 50), .attempt (.acquire 1), .attempt (.reserve 1),
    .attempt (.emitted 1), .attempt (.dispatch 1),
    .attempt (.stream 1 (.response ⟨50, 10, 0, 0⟩) false), .settle 1 payload,
    .attempt (.release 1), .attempt (.emitted 1), .attempt (.leave 1), .turn 1,
    .attempt (.unwind 0), .attempt (.leave 0), .attempt (.leave 0), .attempt (.leave 0),
    .finish 0 none true, .close 0, .finish 1 none false, .close 1, .conclude 1, .record 1,
    .shutdown 1, .taskEnds 0 false, .join 0, .conclude 0, .record 0, .shutdown 0]

theorem replay_agrees_dropped : ∃ s forest,
    (system ⟨.default, .default⟩ "main").run (system ⟨.default, .default⟩ "main").init
      (replayLabels sampleStart sampleEnd) = some s ∧
    (settlements s.trace).map (fun e => (e.node, e.attempt)) = [(1, 1)] ∧
    s.attempts.session.settled.length = 2 ∧
    reconstructTree (s.trace.map fun event => TraceRecord.new event none "") =
      some (.ok forest) ∧ Complete s forest := by
  have hrun : ((system ⟨.default, .default⟩ "main").run
      (system ⟨.default, .default⟩ "main").init
      (replayLabels sampleStart sampleEnd)).map (fun s =>
        ((settlements s.trace).map (fun e => (e.node, e.attempt)),
          s.attempts.session.settled.length, (s.nodes[0]?).map fun n => n.pc.isShut)) =
      some ([(1, 1)], 2, some true) := by
    decide +kernel
  obtain ⟨s, hs, heq⟩ := Option.map_eq_some_iff.mp hrun
  simp only [Prod.mk.injEq] at heq
  obtain ⟨n, hn, hshut⟩ := Option.map_eq_some_iff.mp heq.2.2
  have hevents : (s.trace.map fun event => TraceRecord.new event none "").map
      TraceRecord.event = s.trace := by
    rw [List.map_map]
    exact List.map_id s.trace
  have hprefix : (s.trace.map fun event => TraceRecord.new event none "").map
      TraceRecord.event <+: s.trace := by rw [hevents]
  obtain ⟨forest, hforest, -, hcomplete⟩ := replay_agrees ⟨.default, .default⟩ "main"
    (LTS.System.reachable_of_run hs) hprefix
  exact ⟨s, forest, hs, heq.1, heq.2.1, hforest,
    hcomplete ⟨n, hn, Pc.eq_shut hshut⟩ hevents⟩

end Kyora.Shutdown
