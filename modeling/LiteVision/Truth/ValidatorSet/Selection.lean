import LiteVision.Lib.Ranking
import LiteVision.Truth.ValidatorSet.Rewards
import LiteVision.Truth.ValidatorSet.Table

/-!
# The strongest validators

`select_top_validators` sorts the active validators by power, greatest first, and takes as many
as it is asked for. The sort is stable, so ties go to who stands first in the list, and what is
selected depends on the order of the list just when one of the selected is tied.
-/

namespace LiteVision.Truth

open Lib

namespace ValidatorSet

def byPower (a b : Validator) : Bool := b.power ≤ a.power

def selectTopValidators (s : ValidatorSet) (count : Nat) : List Validator :=
  (s.getActive.mergeSort byPower).take count

theorem table_new : Table new.validators :=
  ⟨List.nodup_nil, Nat.zero_le _, fun _ hv => absurd hv List.not_mem_nil⟩

theorem table_exec (it : Map.Iteration (Bytes 32) UInt64) (run : List Call) :
    Table (Trace.exec (call it) new run).validators :=
  Trace.invariant (I := fun s : ValidatorSet => Table s.validators)
    (fun _ c h => table_call it h c) table_new run

variable {s : ValidatorSet} {count : Nat} {v w : Validator}

theorem byPower_trans (a b d : Validator) (hab : byPower a b = true) (hbd : byPower b d = true) :
    byPower a d = true := by
  simp only [byPower, decide_eq_true_eq] at *
  exact UInt64.le_trans hbd hab

theorem byPower_total (a b : Validator) : (byPower a b || byPower b a) = true := by
  simp only [byPower, Bool.or_eq_true, decide_eq_true_eq]
  exact UInt64.le_total b.power a.power

theorem sorted_getActive (s : ValidatorSet) :
    (s.getActive.mergeSort byPower).Pairwise fun a b => b.power ≤ a.power :=
  (List.pairwise_mergeSort byPower_trans byPower_total _).imp of_decide_eq_true

theorem mem_getActive : v ∈ s.getActive ↔ v ∈ s.validators ∧ v.status = .active := by
  simp [getActive]

theorem mem_of_mem_selectTop (h : v ∈ s.selectTopValidators count) : v ∈ s.getActive :=
  List.mem_mergeSort.mp (List.mem_of_mem_take h)

theorem nodup_selectTop (h : Table s.validators) :
    ((s.selectTopValidators count).map Validator.id).Nodup := by
  have hsorted : ((s.getActive.mergeSort byPower).map Validator.id).Nodup :=
    ((List.mergeSort_perm _ _).map Validator.id).nodup_iff.mpr (nodup_getActive h.nodup)
  exact ((List.take_sublist count _).map Validator.id).nodup hsorted

theorem power_le_of_left_out (hv : v ∈ s.getActive) (hout : v ∉ s.selectTopValidators count)
    (hw : w ∈ s.selectTopValidators count) : v.power ≤ w.power := by
  have hsorted := sorted_getActive s
  have hmem : v ∈ s.getActive.mergeSort byPower := List.mem_mergeSort.mpr hv
  rw [← List.take_append_drop count (s.getActive.mergeSort byPower)] at hsorted hmem
  have hrest := (List.mem_append.mp hmem).resolve_left hout
  exact (List.pairwise_append.mp hsorted).2.2 w hw v hrest

theorem selectTop_sortByPower (s : ValidatorSet) (count : Nat) :
    s.sortByPower.selectTopValidators count = s.selectTopValidators count := by
  have hactive : s.sortByPower.getActive = s.getActive.mergeSort byPower :=
    Ranking.filter_mergeSort byPower_trans byPower_total _ s.validators
  rw [selectTopValidators, hactive, List.mergeSort_of_pairwise
    (List.pairwise_mergeSort byPower_trans byPower_total _), selectTopValidators]

theorem exists_perm_validators {l : List Validator} (h : l.Perm s.getActive) :
    ∃ s' : ValidatorSet, s'.validators.Perm s.validators ∧ s'.getActive = l := by
  have hpart := List.filter_append_perm (fun v : Validator => v.status = .active) s.validators
  refine ⟨{ s with validators := l ++ s.validators.filter fun v => !(v.status = .active) },
    (h.append_right _).trans hpart, ?_⟩
  have hall : ∀ v ∈ l, v.status = .active := fun v hv => (mem_getActive.mp (h.subset hv)).2
  rw [getActive, List.filter_append, List.filter_eq_self.mpr fun v hv => by simp [hall v hv],
    List.filter_eq_nil_iff.mpr fun v hv => by simpa using (List.mem_filter.mp hv).2,
    List.append_nil]

/-- The selection is that of every order of the list just when as many as are asked for
have strictly more power than any two that are tied. -/
theorem selectTop_perm_iff (s : ValidatorSet) (count : Nat) :
    (∀ s' : ValidatorSet, s'.validators.Perm s.validators →
        s'.selectTopValidators count = s.selectTopValidators count) ↔
      ∀ v ∈ s.getActive, ∀ w ∈ s.getActive, v ≠ w → v.power = w.power →
        count ≤ s.getActive.countP fun u => v.power < u.power := by
  have hrank := Ranking.take_mergeSort_perm_iff byPower_trans byPower_total
    (l := s.getActive) (k := count) id fun _ _ _ _ heq => heq
  simp only [List.map_id] at hrank
  have horders : (∀ s' : ValidatorSet, s'.validators.Perm s.validators →
        s'.selectTopValidators count = s.selectTopValidators count) ↔
      ∀ l : List Validator, l.Perm s.getActive →
        (l.mergeSort byPower).take count = (s.getActive.mergeSort byPower).take count := by
    constructor
    · intro h l hl
      obtain ⟨s', hperm, rfl⟩ := exists_perm_validators hl
      exact h s' hperm
    · intro h s' hperm
      exact h s'.getActive (hperm.filter _)
  rw [horders, hrank]
  have hstrict (v w : Validator) : (!byPower v w) = decide (v.power < w.power) := by
    rw [byPower, ← decide_not, decide_eq_decide, UInt64.not_le]
  constructor
  · intro h v hv w hw hne heq
    have hcount := h v hv w hw hne (by simp [byPower, heq]) (by simp [byPower, heq])
    simpa only [hstrict] using hcount
  · intro h v hv w hw hne hvw hwv
    simp only [byPower, decide_eq_true_eq] at hvw hwv
    simpa only [hstrict] using h v hv w hw hne (UInt64.le_antisymm hwv hvw)

/-- In every state that calls reach: distinct active validators are selected, as many as asked
for or all of them, the strongest first and none weaker than who is left out. Sorting the list
before changes nothing, and every order of it gives the same selection just when as many as
are asked for have strictly more power than any two that are tied. -/
theorem selectTopValidators_run (it : Map.Iteration (Bytes 32) UInt64) (run : List Call)
    (count : Nat) :
    let s := Trace.exec (call it) new run
    let top := s.selectTopValidators count
    (top.map Validator.id).Nodup ∧ top.length = min count s.getActive.length ∧
      (∀ v ∈ top, v ∈ s.validators ∧ v.status = .active) ∧
      (top.Pairwise fun a b => b.power ≤ a.power) ∧
      (∀ v ∈ s.getActive, v ∉ top → ∀ w ∈ top, v.power ≤ w.power) ∧
      s.sortByPower.selectTopValidators count = top ∧
      ((∀ s' : ValidatorSet, s'.validators.Perm s.validators →
          s'.selectTopValidators count = top) ↔
        ∀ v ∈ s.getActive, ∀ w ∈ s.getActive, v ≠ w → v.power = w.power →
          count ≤ s.getActive.countP fun u => v.power < u.power) := by
  intro s top
  have htable : Table s.validators := table_exec it run
  refine ⟨nodup_selectTop htable, ?_, fun v hv => mem_getActive.mp (mem_of_mem_selectTop hv), ?_,
    fun v hv hout w hw => power_le_of_left_out hv hout hw, selectTop_sortByPower s count,
    selectTop_perm_iff s count⟩
  · simp [top, selectTopValidators]
  · exact (sorted_getActive s).sublist (List.take_sublist count _)

end ValidatorSet

end LiteVision.Truth
