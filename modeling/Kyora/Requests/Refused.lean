import Kyora.Ledger.Operations
import Kyora.Requests.Basic

/-! # Refused requests

  A request that returns an error before its task is started leaves everything
  as it was. Only the check that the caller is open may have an effect: where
  an external owner was cancelled already, it cancels the caller's own token.
-/

namespace Kyora.Requests

open Tree (Config Node ChildSpec Owner LlmCall)

/-- What a refused request of a node may change. -/
inductive Refused (n : Node) (s t : State) : Prop where
  | kept (h : t = s)
  /-- A cancelled owner cancels the node token, which was not cancelled yet. -/
  | stopped (hrunning : s.tree.tokens.isCancelled n.cx.cancel = false)
      (howner : ∃ k ∈ n.cx.owners, s.tree.tokens.isCancelled k = true)
      (h : t = { s with tree := { s.tree with tokens := s.tree.tokens.cancel n.cx.cancel } })

/-- `check_open` cancels the node token of a cancelled owner at most. -/
theorem refused_of_checkOpen {s : State} {n : Node} {tree : Tree.State}
    {result : Except RecursionError Unit} (h : Tree.checkOpen s.tree n = (tree, result)) :
    Refused n s { s with tree } := by
  have hstop : tree = s.tree ∨ tree = s.tree.stop n.cx := by
    unfold Tree.checkOpen at h
    split at h
    · exact .inl (Prod.mk.inj h).1.symm
    · right
      unfold Tree.stopped at h
      split at h
      · next heq =>
        obtain ⟨rfl, -⟩ := Prod.mk.inj h
        exact (Prod.mk.inj heq).1.symm
      · next heq =>
        obtain ⟨rfl, -⟩ := Prod.mk.inj h
        exact (Prod.mk.inj heq).1.symm
  rcases hstop with rfl | rfl
  · exact .kept rfl
  · unfold Tree.State.stop
    split
    · next hcond =>
      rw [Bool.and_eq_true, Bool.not_eq_true', List.any_eq_true] at hcond
      exact .stopped hcond.1 hcond.2 rfl
    · exact .kept rfl

variable {cfg : Config} {s t : State} {n : Node}

/-- `NodeCtx::spawn_agent` admits last, and what it decides before has no effect. -/
theorem spawnAgent_refused {spec : ChildSpec} {owner : Owner} {e : RecursionError}
    (h : spawnAgent cfg s n spec owner = some (t, .error e)) : Refused n s t := by
  unfold spawnAgent at h
  split at h
  · next tree e' hcheck =>
    obtain ⟨rfl, -⟩ := Prod.mk.inj (Option.some.inj h)
    exact refused_of_checkOpen hcheck
  · next tree hcheck =>
    obtain ⟨⟨after, result⟩, hspawn, heq⟩ := Option.map_eq_some_iff.mp h
    cases result with
    | ok id => cases (Prod.mk.inj heq).2
    | error e' =>
      obtain ⟨rfl, -⟩ := Prod.mk.inj heq
      rcases Tree.spawnAgent_cases hspawn with ⟨rfl, -⟩ | ⟨_, _, _, _, -, -, -, hok, -⟩
      · exact refused_of_checkOpen hcheck
      · cases hok

theorem llm_refused {call : LlmCall} {owner : Nat} {e : RecursionError}
    (h : llm cfg s n call owner = some (t, .error e)) : Refused n s t := by
  unfold llm at h
  split at h
  · obtain ⟨rfl, -⟩ := Prod.mk.inj (Option.some.inj h)
    exact .kept rfl
  · split at h
    · obtain ⟨rfl, -⟩ := Prod.mk.inj (Option.some.inj h)
      exact .kept rfl
    · split at h
      · next tree e' hcheck =>
        obtain ⟨rfl, -⟩ := Prod.mk.inj (Option.some.inj h)
        exact refused_of_checkOpen hcheck
      · next tree hcheck =>
        obtain ⟨⟨after, result⟩, hllm, heq⟩ := Option.map_eq_some_iff.mp h
        cases result with
        | ok id => cases (Prod.mk.inj heq).2
        | error e' =>
          obtain ⟨rfl, -⟩ := Prod.mk.inj heq
          rcases Tree.llm_cases hllm with ⟨rfl, -⟩ | ⟨_, _, _, _, _, -, -, -, hok, -⟩
          · exact refused_of_checkOpen hcheck
          · cases hok

/-- `NodeCtx::send` reserves last: nothing fails once the room is reserved. -/
theorem send_refused {to_ : NodeId} {body : String} {sentAt : Int} {e : RecursionError}
    (h : send cfg s n to_ body sentAt = (t, .error e)) : Refused n s t := by
  unfold send at h
  split at h
  · obtain ⟨rfl, -⟩ := Prod.mk.inj h
    exact .kept rfl
  · split at h
    · next tree e' hcheck =>
      obtain ⟨rfl, -⟩ := Prod.mk.inj h
      exact refused_of_checkOpen hcheck
    · next tree hcheck =>
      have hrefused := refused_of_checkOpen hcheck
      split at h
      · obtain ⟨rfl, -⟩ := Prod.mk.inj h
        exact hrefused
      · split at h
        · obtain ⟨rfl, -⟩ := Prod.mk.inj h
          exact hrefused
        · obtain ⟨rfl, -⟩ := Prod.mk.inj h
          exact hrefused
        · cases (Prod.mk.inj h).2

end Kyora.Requests
