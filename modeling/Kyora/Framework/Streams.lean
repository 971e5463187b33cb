import Mathlib.Data.List.Basic

/-! # Events of several streams

  Each event belongs to one stream, and a state shows each stream a view of
  itself. If an event changes no view but that of its own stream, and this one as
  a machine of its own would, then a run shows each stream what its own events
  alone make of it. So runs that interleave the same streams differently show
  each of them the same.
-/

namespace Streams

variable {State Event Stream View : Type*} {step : State → Event → State}
  {stream : Event → Stream} {view : Stream → State → View} {solo : View → Event → View}

/-- Events leave the views of other streams, and change that of their own as
    `solo` does. -/
structure Independent (step : State → Event → State) (stream : Event → Stream)
    (view : Stream → State → View) (solo : View → Event → View) : Prop where
  frame : ∀ s e k, stream e ≠ k → view k (step s e) = view k s
  own : ∀ s e, view (stream e) (step s e) = solo (view (stream e) s) e

variable [DecidableEq Stream]

/-- A stream sees its own events only. -/
theorem Independent.foldl_eq (h : Independent step stream view solo) (k : Stream) (s : State)
    (es : List Event) :
    view k (es.foldl step s) = (es.filter (stream · = k)).foldl solo (view k s) := by
  induction es generalizing s with
  | nil => rfl
  | cons e es ih =>
    rw [List.foldl_cons, ih, List.filter_cons]
    by_cases he : stream e = k
    · rw [if_pos (decide_eq_true he), List.foldl_cons, ← he, h.own]
    · rw [if_neg (by rw [decide_eq_true_eq]; exact he), h.frame s e k he]

/-- Two interleavings of the same streams show each stream the same. -/
theorem Independent.interleave (h : Independent step stream view solo) {es es' : List Event}
    (hes : ∀ k, es.filter (stream · = k) = es'.filter (stream · = k)) (s : State) (k : Stream) :
    view k (es.foldl step s) = view k (es'.foldl step s) := by
  rw [h.foldl_eq, h.foldl_eq, hes]

end Streams
