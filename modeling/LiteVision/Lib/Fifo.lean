import LiteVision.Lib.Trace

/-!
# Queues along a run

A step of a machine gives out a list of things. Where each step only adds to the back of a
queue and takes from the front of it, what a run has added is what it has taken and, after
that, what is still in the queue.
-/

namespace LiteVision.Lib.Fifo

variable {σ α β : Type} {step : σ → α → σ} {s : σ}

def outputs (step : σ → α → σ) (out : σ → α → List β) : σ → List α → List β
  | _, [] => []
  | s, a :: run => out s a ++ outputs step out (step s a) run

theorem outputs_map {γ : Type} (out : σ → α → List β) (f : β → γ) (run : List α) :
    outputs step (fun s a => (out s a).map f) s run = (outputs step out s run).map f := by
  induction run generalizing s with
  | nil => rfl
  | cons a run ih => simp [outputs, ih]

theorem outputs_toList (out : α → Option β) (run : List α) :
    outputs step (fun _ a => (out a).toList) s run = run.filterMap out := by
  induction run generalizing s with
  | nil => rfl
  | cons a run ih => cases h : out a <;> simp [outputs, ih, h]

/-- Nothing is lost or handed out twice, and what came first leaves first. -/
theorem outputs_eq {I : σ → Prop} (queue : σ → List β) {pushed popped : σ → α → List β}
    (hkeep : ∀ s a, I s → I (step s a))
    (hstep : ∀ s a, I s → queue s ++ pushed s a = popped s a ++ queue (step s a)) (h0 : I s)
    (run : List α) :
    queue s ++ outputs step pushed s run =
      outputs step popped s run ++ queue (Trace.exec step s run) := by
  induction run generalizing s with
  | nil => simp [outputs]
  | cons a run ih =>
    calc queue s ++ outputs step pushed s (a :: run)
        = queue s ++ pushed s a ++ outputs step pushed (step s a) run := by simp [outputs]
      _ = popped s a ++ (queue (step s a) ++ outputs step pushed (step s a) run) := by
          rw [hstep s a h0, List.append_assoc]
      _ = outputs step popped s (a :: run) ++ queue (Trace.exec step s (a :: run)) := by
          rw [ih (hkeep s a h0)]
          simp [outputs]

end LiteVision.Lib.Fifo
