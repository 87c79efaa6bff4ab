import Mathlib.Data.List.Basic

/-!
# What an operation reads and writes

States are seen through cells: `look s a` is what cell `a` holds in `s`. An
operation gives a result and the next state. Its footprint is a list of cells
its outcome depends on and a list of cells it may change, on the states with an
invariant it keeps. Operations with footprints apart commute.
-/

namespace LiteVision.Lib

variable {σ ρ ρ' A : Type} {V : A → Type}

structure Footprint (look : σ → (a : A) → V a) (I : σ → Prop) (f : σ → ρ × σ)
    (reads writes : List A) : Prop where
  keeps : ∀ s, I s → I (f s).2
  frame : ∀ s, I s → ∀ a, a ∉ writes → look (f s).2 a = look s a
  result : ∀ s s', I s → I s' → (∀ a ∈ reads, look s a = look s' a) → (f s).1 = (f s').1
  /-- Cells that agree before agree after. -/
  agree : ∀ s s', I s → I s' → (∀ a ∈ reads, look s a = look s' a) →
    ∀ a, look s a = look s' a → look (f s).2 a = look (f s').2 a

namespace Footprint

variable {look : σ → (a : A) → V a} {I : σ → Prop} {f : σ → ρ × σ} {reads writes : List A}

theorem mono {reads' writes' : List A} (h : Footprint look I f reads writes)
    (hreads : reads ⊆ reads') (hwrites : writes ⊆ writes') : Footprint look I f reads' writes' where
  keeps := h.keeps
  frame s hs a ha := h.frame s hs a fun hmem => ha (hwrites hmem)
  result s s' hs hs' heq := h.result s s' hs hs' fun a ha => heq a (hreads ha)
  agree s s' hs hs' heq := h.agree s s' hs hs' fun a ha => heq a (hreads ha)

theorem inspect (hsame : ∀ s, I s → (f s).2 = s)
    (hresult : ∀ s s', I s → I s' → (∀ a ∈ reads, look s a = look s' a) → (f s).1 = (f s').1) :
    Footprint look I f reads [] where
  keeps s hs := by
    rw [hsame s hs]
    exact hs
  frame s hs a _ := by rw [hsame s hs]
  result := hresult
  agree s s' hs hs' _ a ha := by
    rw [hsame s hs, hsame s' hs']
    exact ha

theorem cell {a : A} (g : V a → ρ × V a) (hkeeps : ∀ s, I s → I (f s).2)
    (hresult : ∀ s, I s → (f s).1 = (g (look s a)).1)
    (hself : ∀ s, I s → look (f s).2 a = (g (look s a)).2)
    (hother : ∀ s, I s → ∀ b, b ≠ a → look (f s).2 b = look s b)
    (hreads : a ∈ reads ∨ ∀ v v', g v = g v') : Footprint look I f reads [a] := by
  have hread : ∀ s s', (∀ b ∈ reads, look s b = look s' b) → g (look s a) = g (look s' a) := by
    intro s s' heq
    rcases hreads with hmem | hconst
    · rw [heq a hmem]
    · exact hconst _ _
  refine ⟨hkeeps, fun s hs b hb => hother s hs b (by simpa using hb), ?_, ?_⟩
  · intro s s' hs hs' heq
    rw [hresult s hs, hresult s' hs', hread s s' heq]
  · intro s s' hs hs' heq b hb
    by_cases hba : b = a
    · subst hba
      rw [hself s hs, hself s' hs', hread s s' heq]
    · rw [hother s hs b hba, hother s' hs' b hba, hb]

theorem seq {g : σ → ρ' × σ} {reads' writes' : List A} (hf : Footprint look I f reads writes)
    (hg : Footprint look I g reads' writes') :
    Footprint look I (fun s => g (f s).2) (reads ++ reads') (writes ++ writes') := by
  have hmid : ∀ s s', I s → I s' → (∀ a ∈ reads ++ reads', look s a = look s' a) →
      ∀ a, look s a = look s' a → look (f s).2 a = look (f s').2 a := fun s s' hs hs' heq =>
    hf.agree s s' hs hs' fun a ha => heq a (List.mem_append_left _ ha)
  have hreads' : ∀ s s', I s → I s' → (∀ a ∈ reads ++ reads', look s a = look s' a) →
      ∀ a ∈ reads', look (f s).2 a = look (f s').2 a := fun s s' hs hs' heq a ha =>
    hmid s s' hs hs' heq a (heq a (List.mem_append_right _ ha))
  refine ⟨fun s hs => hg.keeps _ (hf.keeps s hs), ?_, ?_, ?_⟩
  · intro s hs a ha
    obtain ⟨ha, ha'⟩ := not_or.mp (mt List.mem_append.mpr ha)
    exact (hg.frame _ (hf.keeps s hs) a ha').trans (hf.frame s hs a ha)
  · intro s s' hs hs' heq
    exact hg.result _ _ (hf.keeps s hs) (hf.keeps s' hs') (hreads' s s' hs hs' heq)
  · intro s s' hs hs' heq a ha
    exact hg.agree _ _ (hf.keeps s hs) (hf.keeps s' hs') (hreads' s s' hs hs' heq) a
      (hmid s s' hs hs' heq a ha)

theorem guard {p : σ → Option ρ} {reads' : List A}
    (hp : ∀ s s', I s → I s' → (∀ a ∈ reads', look s a = look s' a) → p s = p s')
    (hf : Footprint look I f reads writes) :
    Footprint look I (fun s => (p s).elim (f s) fun r => (r, s)) (reads' ++ reads) writes := by
  have hcheck : ∀ s s', I s → I s' → (∀ a ∈ reads' ++ reads, look s a = look s' a) → p s = p s' :=
    fun s s' hs hs' heq => hp s s' hs hs' fun a ha => heq a (List.mem_append_left _ ha)
  refine ⟨?_, ?_, ?_, ?_⟩
  · intro s hs
    cases hps : p s with
    | none => exact hf.keeps s hs
    | some r => exact hs
  · intro s hs a ha
    cases hps : p s with
    | none => exact hf.frame s hs a ha
    | some r => rfl
  · intro s s' hs hs' heq
    rw [hcheck s s' hs hs' heq]
    cases hps : p s' with
    | none => exact hf.result s s' hs hs' fun a ha => heq a (List.mem_append_right _ ha)
    | some r => rfl
  · intro s s' hs hs' heq a ha
    rw [hcheck s s' hs hs' heq]
    cases hps : p s' with
    | none => exact hf.agree s s' hs hs' (fun a ha => heq a (List.mem_append_right _ ha)) a ha
    | some r => exact ha

theorem map (g : ρ → ρ') (hf : Footprint look I f reads writes) :
    Footprint look I (fun s => (g (f s).1, (f s).2)) reads writes where
  keeps := hf.keeps
  frame := hf.frame
  result s s' hs hs' heq := congrArg g (hf.result s s' hs hs' heq)
  agree := hf.agree

theorem refuse {refused : Prop} [Decidable refused] {r : ρ} {next : ¬ refused → σ → ρ × σ}
    (h : ∀ hrun : ¬ refused, Footprint look I (next hrun) reads writes) :
    Footprint look I (fun s => if hr : refused then (r, s) else next hr s) reads writes := by
  by_cases hr : refused
  · simp only [dif_pos hr]
    exact (inspect (fun _ _ => rfl) fun _ _ _ _ _ => rfl).mono (List.Subset.refl _) (List.nil_subset _)
  · simp only [dif_neg hr]
    exact h hr

-- ---------------------------------------------------------------------------
-- Independence
-- ---------------------------------------------------------------------------

variable {g : σ → ρ' × σ} {reads' writes' : List A}

/-- What an operation gives does not depend on one that writes none of its reads. -/
theorem result_after (hf : Footprint look I f reads writes) (hg : Footprint look I g reads' writes')
    (h : writes'.Disjoint reads) {s : σ} (hs : I s) : (f (g s).2).1 = (f s).1 :=
  hf.result _ _ (hg.keeps s hs) hs fun a ha => hg.frame s hs a fun hmem => h hmem ha

theorem look_after (hf : Footprint look I f reads writes) (hg : Footprint look I g reads' writes')
    (h : writes'.Disjoint reads) {s : σ} (hs : I s) {a : A} (ha : a ∉ writes') :
    look (f (g s).2).2 a = look (f s).2 a :=
  hf.agree _ _ (hg.keeps s hs) hs (fun b hb => hg.frame s hs b fun hmem => h hmem hb) a
    (hg.frame s hs a ha)

/-- Operations with footprints apart leave the same cells in either order. -/
theorem commute (hf : Footprint look I f reads writes) (hg : Footprint look I g reads' writes')
    (hfg : writes.Disjoint (reads' ++ writes')) (hgf : writes'.Disjoint (reads ++ writes))
    {s : σ} (hs : I s) (a : A) : look (g (f s).2).2 a = look (f (g s).2).2 a := by
  have hfg' : writes.Disjoint reads' := fun b hb hb' => hfg hb (List.mem_append_left _ hb')
  have hgf' : writes'.Disjoint reads := fun b hb hb' => hgf hb (List.mem_append_left _ hb')
  by_cases ha : a ∈ writes
  · have ha' : a ∉ writes' := fun hmem => hfg ha (List.mem_append_right _ hmem)
    rw [hg.frame _ (hf.keeps s hs) a ha', hf.look_after hg hgf' hs ha']
  · rw [hg.look_after hf hfg' hs ha, hf.frame _ (hg.keeps s hs) a ha]

end Footprint

end LiteVision.Lib
