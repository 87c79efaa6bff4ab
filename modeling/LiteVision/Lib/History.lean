import LiteVision.Lib.Map
import LiteVision.Lib.Trace

/-!
# What a run leaves in a map

Each step of a run writes a value, sweeps the map by a test on its entries, or does not
touch it. What is found after the run is what some step wrote, if no later step wrote to
its key or swept it away.
-/

namespace LiteVision.Lib

variable {K V α : Type} {k : K} {v : V}

namespace Map

def retain (m : Map K V) (keep : K → V → Bool) : Map K V :=
  ⟨m.entries.filter fun e => keep e.1 e.2, by
    obtain ⟨entries, hnodup⟩ := m
    induction entries using Quotient.inductionOn with
    | h l =>
      exact Multiset.coe_nodupKeys.mpr
        ((Multiset.coe_nodupKeys.mp hnodup).sublist List.filter_sublist)⟩

variable [DecidableEq K]

theorem get_retain_eq_some {m : Map K V} {keep : K → V → Bool} :
    (m.retain keep).get k = some v ↔ m.get k = some v ∧ keep k v := by
  have hm : m.get k = some v ↔ (⟨k, v⟩ : Σ _ : K, V) ∈ m.entries := Finmap.lookup_eq_some_iff
  have hkept : (m.retain keep).get k = some v ↔
      (⟨k, v⟩ : Σ _ : K, V) ∈ m.entries.filter fun e => keep e.1 e.2 :=
    Finmap.lookup_eq_some_iff
  rw [hm, hkept, Multiset.mem_filter]

theorem erase_eq_self {m : Map K V} (h : m.get k = none) : m.erase k = m := by
  apply Map.ext
  intro j
  rw [get_erase]
  split
  · rename_i hjk
    rw [hjk, h]
  · rfl

theorem retain_ne (m : Map K V) (k : K) : (m.retain fun j _ => j ≠ k) = m.erase k := by
  apply Map.ext
  intro j
  apply Option.ext
  intro v
  rw [get_retain_eq_some, get_erase]
  split
  · rename_i h
    simp [h]
  · rename_i h
    simp [h]

end Map

namespace History

/-- What a step does to the map. -/
inductive Effect (K V : Type) where
  | skip
  | put (k : K) (v : V)
  | sweep (keep : K → V → Bool)

namespace Effect

def apply [DecidableEq K] (m : Map K V) : Effect K V → Map K V
  | skip => m
  | put k v => m.insert k v
  | sweep keep => m.retain keep

/-- The entry is left as it is. -/
def Spares (k : K) (v : V) : Effect K V → Prop
  | skip => True
  | put j _ => j ≠ k
  | sweep keep => keep k v = true

end Effect

-- ---------------------------------------------------------------------------
-- The last of some steps
-- ---------------------------------------------------------------------------

variable {run : List α}

/-- Some step of the run has `W` after what was before it, and each one after it has `S`. -/
def Lastly (W : List α → α → Prop) (S : α → Prop) (run : List α) : Prop :=
  ∃ before a after, run = before ++ a :: after ∧ W before a ∧ ∀ b ∈ after, S b

theorem not_lastly_nil {W : List α → α → Prop} {S : α → Prop} : ¬ Lastly W S [] := by
  rintro ⟨before, a, after, h, -⟩
  cases List.append_eq_nil_iff.mp h.symm |>.2

theorem lastly_concat {W : List α → α → Prop} {S : α → Prop} (a : α) :
    Lastly W S (run ++ [a]) ↔ W run a ∨ (Lastly W S run ∧ S a) := by
  constructor
  · rintro ⟨before, b, after, hrun, hW, hS⟩
    rcases List.eq_nil_or_concat after with rfl | ⟨after, last, rfl⟩
    · obtain ⟨rfl, hab⟩ := List.append_inj' hrun rfl
      cases hab
      exact .inl hW
    · rw [List.concat_eq_append] at hS hrun
      rw [← List.cons_append, ← List.append_assoc] at hrun
      obtain ⟨rfl, hlast⟩ := List.append_inj' hrun rfl
      cases hlast
      exact .inr ⟨⟨before, b, after, rfl, hW, fun d hd => hS d (List.mem_append_left _ hd)⟩,
        hS a (by simp)⟩
  · rintro (hW | ⟨⟨before, b, after, rfl, hW, hS⟩, hlast⟩)
    · exact ⟨run, a, [], rfl, hW, by simp⟩
    · refine ⟨before, b, after ++ [a], by simp, hW, fun d hd => ?_⟩
      rcases List.mem_append.mp hd with hd | hd
      · exact hS d hd
      · exact List.mem_singleton.mp hd ▸ hlast

-- ---------------------------------------------------------------------------
-- What is left in a map
-- ---------------------------------------------------------------------------

variable {effect : α → Effect K V}

/-- Some step of the run wrote `v` under `k`, and each one after it spares that. -/
def Stands (effect : α → Effect K V) (run : List α) (k : K) (v : V) : Prop :=
  ∃ before a after, run = before ++ a :: after ∧ effect a = .put k v ∧
    ∀ b ∈ after, (effect b).Spares k v

theorem not_stands_nil : ¬ Stands effect [] k v := not_lastly_nil

theorem stands_concat (a : α) :
    Stands effect (run ++ [a]) k v ↔
      effect a = .put k v ∨ (Stands effect run k v ∧ (effect a).Spares k v) :=
  lastly_concat a

variable [DecidableEq K]

theorem get_apply {m : Map K V} (e : Effect K V) :
    (e.apply m).get k = some v ↔ e = .put k v ∨ (m.get k = some v ∧ e.Spares k v) := by
  cases e with
  | skip => simp [Effect.apply, Effect.Spares]
  | put j w =>
    simp only [Effect.apply, Effect.Spares, Map.get_insert, Effect.put.injEq]
    split
    · rename_i hkj
      simp [hkj]
    · rename_i hkj
      simp [Ne.symm hkj]
  | sweep keep => simp [Effect.apply, Effect.Spares, Map.get_retain_eq_some]

/-- Whatever else a machine does: if its steps keep an invariant and have these effects on a
map of its state, the map it starts with being empty, what is found there stands in the run. -/
theorem get_exec_iff_of_invariant {σ : Type} {step : σ → α → σ} {I : σ → Prop}
    (view : σ → Map K V) {s : σ} (hkeep : ∀ s a, I s → I (step s a))
    (hstep : ∀ s a, I s → view (step s a) = (effect a).apply (view s)) (hs : I s)
    (hstart : view s = .empty) :
    (view (Trace.exec step s run)).get k = some v ↔ Stands effect run k v := by
  induction run using List.reverseRecOn with
  | nil => simp [hstart, not_stands_nil]
  | append_singleton run a ih =>
    have hexec : I (Trace.exec step s run) := Trace.invariant hkeep hs run
    rw [Trace.exec_concat, hstep _ a hexec, get_apply, ih, stands_concat]

theorem get_exec_iff {σ : Type} {step : σ → α → σ} (view : σ → Map K V) {s : σ}
    (hstep : ∀ s a, view (step s a) = (effect a).apply (view s)) (hstart : view s = .empty) :
    (view (Trace.exec step s run)).get k = some v ↔ Stands effect run k v :=
  get_exec_iff_of_invariant (I := fun _ => True) view (fun _ _ => id) (fun s a _ => hstep s a)
    trivial hstart

end History

end LiteVision.Lib
