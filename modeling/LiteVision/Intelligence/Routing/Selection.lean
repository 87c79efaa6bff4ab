import LiteVision.Intelligence.Routing.Constraints
import LiteVision.Lib.Ranking

/-!
# Deterministic selection

The tie-break of the deterministic mode is a number below 1000, hashed from the id of
the operator and added to the score, and what is still tied is left in the order of the
list. So it also changes the order of different scores, and it does not break every tie.
-/

namespace LiteVision.Intelligence.Routing

open Lib

variable {thalamus : Thalamus} {operators : List OperatorSnapshot} {request : RouteRequest}
  {scores : List OperatorScore} {k : Nat} {seed : UInt64}

/-- The score that is sorted by. -/
def OperatorScore.tiebroken (seed : UInt64) (s : OperatorScore) : UInt64 :=
  s.score + Thalamus.deterministicTiebreak s.operatorId seed

/-- A returned score, as it was before the tie-break. -/
def OperatorScore.untied (seed : UInt64) (s : OperatorScore) : OperatorScore :=
  { s with score := s.score - Thalamus.deterministicTiebreak s.operatorId seed }

/-- The order of the sort. -/
def ranks {A : Type} (key : A → UInt64) (a b : A) : Bool := key b ≤ key a

theorem ranks_trans {A : Type} (key : A → UInt64) (a b c : A) (hab : ranks key a b = true)
    (hbc : ranks key b c = true) : ranks key a c = true :=
  decide_eq_true (UInt64.le_trans (of_decide_eq_true hbc) (of_decide_eq_true hab))

theorem ranks_total {A : Type} (key : A → UInt64) (a b : A) :
    (ranks key a b || ranks key b a) = true := by
  rw [Bool.or_eq_true, ranks, ranks, decide_eq_true_eq, decide_eq_true_eq]
  exact UInt64.le_total (key b) (key a)

theorem not_ranks {A : Type} (key : A → UInt64) (a b : A) :
    (!ranks key a b) = decide (key a < key b) := by
  rw [ranks, ← decide_not, decide_eq_decide, UInt64.not_le]

theorem deterministicSelect_eq (scores : List OperatorScore) (k : Nat) (seed : UInt64) :
    Thalamus.deterministicSelect scores k seed =
      ((scores.mergeSort (ranks (OperatorScore.tiebroken seed))).take k).map fun s =>
        { s with score := s.tiebroken seed } := by
  rw [Thalamus.deterministicSelect, List.map_take, List.map_mergeSort]
  · rfl
  · exact fun _ _ _ _ => rfl

-- ---------------------------------------------------------------------------
-- The order of the scores
-- ---------------------------------------------------------------------------

/-- What is returned, with the scores from before the tie-break. -/
def returned (scores : List OperatorScore) (k : Nat) (seed : UInt64) : List OperatorScore :=
  (Thalamus.deterministicSelect scores k seed).map (OperatorScore.untied seed)

/-- No score is left out for a lower one, and the returned ones fall. -/
structure BreaksTiesOnly (scores : List OperatorScore) (k : Nat) (seed : UInt64) : Prop where
  best : ∀ s ∈ returned scores k seed, ∀ t ∈ scores.diff (returned scores k seed),
    ¬ s.score < t.score
  ordered : (returned scores k seed).Pairwise fun s t => t.score ≤ s.score

/-- A score with its place in the list comes before another: it is greater with the
tie-break, or equal and in front of it. -/
def Outranks (seed : UInt64) (x y : OperatorScore × Nat) : Prop :=
  y.1.tiebroken seed < x.1.tiebroken seed ∨
    y.1.tiebroken seed = x.1.tiebroken seed ∧ x.2 < y.2

instance : DecidableRel (Outranks seed) := fun _ _ => inferInstanceAs (Decidable (_ ∨ _))

theorem before_ranks_iff {x y : OperatorScore × Nat} :
    Ranking.Before (ranks (OperatorScore.tiebroken seed)) x y ↔ Outranks seed x y := by
  simp only [Ranking.Before, ranks, decide_eq_true_eq, Outranks]
  constructor
  · rintro ⟨hle, hplace⟩
    by_cases hlt : y.1.tiebroken seed < x.1.tiebroken seed
    · exact .inl hlt
    · have hge := UInt64.not_lt.mp hlt
      exact .inr ⟨UInt64.le_antisymm hle hge, hplace hge⟩
  · rintro (hlt | ⟨heq, hplace⟩)
    · exact ⟨UInt64.le_of_lt hlt, fun hge => absurd hlt (UInt64.not_lt.mpr hge)⟩
    · exact ⟨UInt64.le_of_eq heq, fun _ => hplace⟩

theorem returned_eq (scores : List OperatorScore) (k : Nat) (seed : UInt64) :
    returned scores k seed = (scores.mergeSort (ranks (OperatorScore.tiebroken seed))).take k := by
  have huntied : ∀ s : OperatorScore,
      OperatorScore.untied seed { s with score := s.tiebroken seed } = s := by
    intro s
    simp only [OperatorScore.untied, OperatorScore.tiebroken, UInt64.add_sub_cancel]
  rw [returned, deterministicSelect_eq, List.map_map]
  exact (List.map_congr_left fun s _ => huntied s).trans (List.map_id _)

theorem append_diff_self {A : Type} [DecidableEq A] (l m : List A) : (l ++ m).diff l = m := by
  induction l with
  | nil => rfl
  | cons a l ih => rw [List.cons_append, List.diff_cons, List.erase_cons_head, ih]

theorem diff_returned_perm (scores : List OperatorScore) (k : Nat) (seed : UInt64) :
    (scores.diff (returned scores k seed)).Perm
      ((scores.mergeSort (ranks (OperatorScore.tiebroken seed))).drop k) := by
  have hperm := List.mergeSort_perm scores (ranks (OperatorScore.tiebroken seed))
  have hdiff := hperm.symm.diff_right (returned scores k seed)
  rw [returned_eq] at hdiff ⊢
  conv at hdiff => rhs; arg 1; rw [← List.take_append_drop k (scores.mergeSort _)]
  rwa [append_diff_self] at hdiff

theorem breaksTiesOnly_iff : BreaksTiesOnly scores k seed ↔
    (∀ s ∈ (scores.mergeSort (ranks (OperatorScore.tiebroken seed))).take k,
      ∀ t ∈ (scores.mergeSort (ranks (OperatorScore.tiebroken seed))).drop k, t.score ≤ s.score) ∧
    ((scores.mergeSort (ranks (OperatorScore.tiebroken seed))).take k).Pairwise
      fun s t => t.score ≤ s.score := by
  have hleft := diff_returned_perm scores k seed
  constructor
  · rintro ⟨hbest, hordered⟩
    rw [returned_eq] at hbest hordered hleft
    refine ⟨fun s hs t ht => ?_, hordered⟩
    exact UInt64.not_lt.mp (hbest s hs t (hleft.mem_iff.mpr ht))
  · rintro ⟨hbest, hordered⟩
    constructor
    case best =>
      intro s hs t ht
      rw [returned_eq] at hs
      exact UInt64.not_lt.mpr (hbest s hs t (hleft.mem_iff.mp ht))
    case ordered =>
      rw [returned_eq]
      exact hordered

theorem sorted_iff :
    ((∀ s ∈ (scores.mergeSort (ranks (OperatorScore.tiebroken seed))).take k,
      ∀ t ∈ (scores.mergeSort (ranks (OperatorScore.tiebroken seed))).drop k, t.score ≤ s.score) ∧
    ((scores.mergeSort (ranks (OperatorScore.tiebroken seed))).take k).Pairwise
      fun s t => t.score ≤ s.score) ↔
    ∀ x ∈ scores.zipIdx, scores.zipIdx.countP (fun y => Outranks seed y x) < k →
      ∀ y ∈ scores.zipIdx, Outranks seed x y → y.1.score ≤ x.1.score := by
  rw [Ranking.take_mergeSort_iff (ranks_trans _) (ranks_total _) fun s t : OperatorScore =>
    t.score ≤ s.score]
  simp only [before_ranks_iff]

/-- The tie-break only breaks ties just when every score that fewer than `k` come before
is at least every score that it comes before. -/
theorem ties_only_iff (scores : List OperatorScore) (k : Nat) (seed : UInt64) :
    BreaksTiesOnly scores k seed ↔
      ∀ x ∈ scores.zipIdx, scores.zipIdx.countP (fun y => Outranks seed y x) < k →
        ∀ y ∈ scores.zipIdx, Outranks seed x y → y.1.score ≤ x.1.score :=
  breaksTiesOnly_iff.trans sorted_iff

theorem deterministicTiebreak_lt (operatorId : Bytes 32) (seed : UInt64) :
    (Thalamus.deterministicTiebreak operatorId seed).toNat < 1000 := by
  rw [Thalamus.deterministicTiebreak, UInt64.toNat_mod]
  exact Nat.mod_lt _ (by decide)

theorem OperatorScore.toNat_tiebroken {s : OperatorScore} (seed : UInt64)
    (hroom : s.score.toNat + 1000 ≤ 2 ^ 64) :
    (s.tiebroken seed).toNat =
      s.score.toNat + (Thalamus.deterministicTiebreak s.operatorId seed).toNat := by
  have htiebreak := deterministicTiebreak_lt s.operatorId seed
  rw [OperatorScore.tiebroken, UInt64.toNat_add, Nat.mod_eq_of_lt (by omega)]

/-- Scores that differ by at least 1000 where they differ, and are not so high that a sum
wraps, keep their order: the tie-break is below 1000. -/
theorem breaksTiesOnly_of_gaps (k : Nat) (seed : UInt64)
    (hroom : ∀ s ∈ scores, s.score.toNat + 1000 ≤ 2 ^ 64)
    (hgap : ∀ s ∈ scores, ∀ t ∈ scores, s.score < t.score →
      s.score.toNat + 1000 ≤ t.score.toNat) : BreaksTiesOnly scores k seed := by
  refine breaksTiesOnly_iff.mpr (sorted_iff.mpr fun x hx _ y hy houtranks => ?_)
  have hxs : x.1 ∈ scores := (List.mem_zipIdx' hx).2 ▸ List.getElem_mem _
  have hys : y.1 ∈ scores := (List.mem_zipIdx' hy).2 ▸ List.getElem_mem _
  by_contra hlower
  have hscores := hgap x.1 hxs y.1 hys (UInt64.not_le.mp hlower)
  have htiebreak := deterministicTiebreak_lt x.1.operatorId seed
  have hbelow : (x.1.tiebroken seed).toNat < (y.1.tiebroken seed).toNat := by
    rw [OperatorScore.toNat_tiebroken seed (hroom x.1 hxs),
      OperatorScore.toNat_tiebroken seed (hroom y.1 hys)]
    omega
  rcases houtranks with habove | ⟨heq, -⟩
  · exact absurd hbelow (Nat.not_lt.mpr (UInt64.le_of_lt habove))
  · exact absurd hbelow (heq ▸ Nat.lt_irrefl _)

/-- A score of 0 with a tie-break of 2 is returned for a score of 1 with none. -/
theorem ties_only_fails :
    ¬ ∀ (scores : List OperatorScore) (k : Nat) (seed : UInt64), BreaksTiesOnly scores k seed := by
  intro h
  let low : OperatorScore :=
    ⟨⟨List.replicate 31 0 ++ [2], rfl⟩, 0, 0, 0, 0, 0.0, 0⟩
  let high : OperatorScore := ⟨.fill 32 0, 1, 0, 0, 0, 0.0, 0⟩
  have hfalls := sorted_iff.mp (breaksTiesOnly_iff.mp (h [low, high] 1 0))
  have hle : (1 : UInt64) ≤ 0 := hfalls (low, 0) List.mem_cons_self (by decide +kernel)
    (high, 1) (List.mem_cons_of_mem _ List.mem_cons_self) (by decide +kernel)
  exact absurd hle (by decide)

-- ---------------------------------------------------------------------------
-- The order of the list
-- ---------------------------------------------------------------------------

def Thalamus.ranking (thalamus : Thalamus) (request : RouteRequest) (operator : OperatorSnapshot) :
    UInt64 :=
  (thalamus.calculateScore request operator).tiebroken (Thalamus.generateSeed request)

def Thalamus.selectedIds (thalamus : Thalamus) (operators : List OperatorSnapshot)
    (request : RouteRequest) : List (Bytes 32) :=
  (thalamus.route operators request).selectedOperators.map (·.operatorId)

/-- Any two eligible operators that are still tied have `k` eligible ones before them. -/
def Thalamus.TiesOutranked (thalamus : Thalamus) (operators : List OperatorSnapshot)
    (request : RouteRequest) : Prop :=
  ∀ a ∈ operators, ∀ b ∈ operators, thalamus.isEligible a request = true →
    thalamus.isEligible b request = true → a.id ≠ b.id →
    thalamus.ranking request a = thalamus.ranking request b →
      Thalamus.determineK request ≤ operators.countP fun c =>
        thalamus.isEligible c request && thalamus.ranking request a < thalamus.ranking request c

theorem map_get_filterEligible :
    (thalamus.filterEligible operators request).map operators.get =
      operators.filter (thalamus.isEligible · request) := by
  have hall : (List.finRange operators.length).map operators.get = operators :=
    List.map_get_finRange operators
  conv_rhs => rw [← hall, List.filter_map]
  rfl

theorem calculateScores_filterEligible :
    thalamus.calculateScores operators (thalamus.filterEligible operators request) request =
      (operators.filter (thalamus.isEligible · request)).map (thalamus.calculateScore request) := by
  rw [← map_get_filterEligible, List.map_map]
  rfl

theorem selectedIds_eq (hmode : request.executionMode = .deterministic) :
    thalamus.selectedIds operators request =
      (((operators.filter (thalamus.isEligible · request)).mergeSort
        (ranks (thalamus.ranking request))).take (Thalamus.determineK request)).map (·.id) := by
  rw [Thalamus.selectedIds, selected_route, hmode, select, calculateScores_filterEligible,
    deterministicSelect_eq, List.map_map, ← List.map_mergeSort (r := ranks (thalamus.ranking request)),
    ← List.map_take, List.map_map]
  · rfl
  · exact fun _ _ _ _ => rfl

theorem tiesOutranked_iff (hids : (operators.map (·.id)).Nodup) :
    (∀ l : List OperatorSnapshot, l.Perm (operators.filter (thalamus.isEligible · request)) →
      ((l.mergeSort (ranks (thalamus.ranking request))).take
        (Thalamus.determineK request)).map (·.id) =
      (((operators.filter (thalamus.isEligible · request)).mergeSort
        (ranks (thalamus.ranking request))).take (Thalamus.determineK request)).map (·.id)) ↔
    thalamus.TiesOutranked operators request := by
  have hinj : ∀ a ∈ operators, ∀ b ∈ operators, a.id = b.id → a = b :=
    fun a ha b hb => List.inj_on_of_nodup_map hids ha hb
  rw [Ranking.take_mergeSort_perm_iff (ranks_trans _) (ranks_total _) (·.id)
    fun a ha b hb => hinj a (List.mem_of_mem_filter ha) b (List.mem_of_mem_filter hb)]
  simp only [not_ranks, List.countP_filter, List.mem_filter]
  constructor
  · intro h a ha b hb hea heb hne heq
    have hcount := h a ⟨ha, hea⟩ b ⟨hb, heb⟩ (fun hab => hne (congrArg _ hab))
      (decide_eq_true (UInt64.le_of_eq heq.symm)) (decide_eq_true (UInt64.le_of_eq heq))
    simpa only [Bool.and_comm] using hcount
  · rintro h a ⟨ha, hea⟩ b ⟨hb, heb⟩ hne hab hba
    have heq := UInt64.le_antisymm (of_decide_eq_true hba) (of_decide_eq_true hab)
    have hcount := h a ha b hb hea heb (fun hid => hne (hinj a ha b hb hid)) heq
    simpa only [Bool.and_comm] using hcount

theorem exists_perm_filter (p : OperatorSnapshot → Bool) {l : List OperatorSnapshot}
    (hl : l.Perm (operators.filter p)) :
    ∃ operators' : List OperatorSnapshot, operators'.Perm operators ∧ operators'.filter p = l := by
  refine ⟨l ++ operators.filter (!p ·), ?_, ?_⟩
  · exact (hl.append_right _).trans (List.filter_append_perm p operators)
  · have hall : ∀ a ∈ l, p a = true := fun a ha => (List.mem_filter.mp (hl.subset ha)).2
    have hnone : (operators.filter (!p ·)).filter p = [] := by
      rw [List.filter_eq_nil_iff]
      intro a ha
      simpa using (List.mem_filter.mp ha).2
    rw [List.filter_append, List.filter_eq_self.mpr hall, hnone, List.append_nil]

theorem tiesOutranked_of_perm (hmode : request.executionMode = .deterministic)
    (hids : (operators.map (·.id)).Nodup)
    (h : ∀ operators' : List OperatorSnapshot, operators'.Perm operators →
      thalamus.selectedIds operators' request = thalamus.selectedIds operators request) :
    thalamus.TiesOutranked operators request := by
  refine (tiesOutranked_iff hids).mp fun l hl => ?_
  obtain ⟨operators', hperm, rfl⟩ := exists_perm_filter _ hl
  have hsame := h operators' hperm
  rwa [selectedIds_eq hmode, selectedIds_eq hmode] at hsame

/-- The ids that are selected do not depend on the order of the operators just when every
tie that is left has `k` operators before it. -/
theorem order_independent_iff (thalamus : Thalamus) (request : RouteRequest)
    (hmode : request.executionMode = .deterministic) (operators : List OperatorSnapshot)
    (hids : (operators.map (·.id)).Nodup) :
    (∀ operators' : List OperatorSnapshot, operators'.Perm operators →
      thalamus.selectedIds operators' request = thalamus.selectedIds operators request) ↔
    thalamus.TiesOutranked operators request := by
  refine ⟨tiesOutranked_of_perm hmode hids, fun h operators' hperm => ?_⟩
  rw [selectedIds_eq hmode, selectedIds_eq hmode]
  exact (tiesOutranked_iff hids).mpr h _ (hperm.filter _)

def plainOperator (id : Bytes 32) : OperatorSnapshot :=
  ⟨id, true, true, 1000, 800, "us-east", 10000, 500, 50, 10, 16⟩

def plainRequest : RouteRequest :=
  ⟨.fill 32 1, .fill 32 1, 1024, 5000, 1000, [], 1, .balanced, .deterministic, 100,
    ⟨.parallel, .balanced, .deterministic, 1000, 0⟩⟩

theorem isEligible_plainOperator (id : Bytes 32) :
    Thalamus.new.isEligible (plainOperator id) plainRequest = true :=
  isEligible_of_nil rfl rfl rfl (by decide : (5000 : UInt64) ≤ 10000)
    (by decide : (10 : UInt32) ≠ 0)

theorem ranking_plainOperator (id : Bytes 32) :
    Thalamus.new.ranking plainRequest (plainOperator id) =
      (Thalamus.new.calculateScore plainRequest (plainOperator (.fill 32 0))).score +
        Thalamus.deterministicTiebreak id (Thalamus.generateSeed plainRequest) := by
  rw [Thalamus.ranking, OperatorScore.tiebroken]
  simp only [Thalamus.calculateScore, Thalamus.new, plainOperator, Map.get_empty]
  rfl

/-- Two operators that are told apart by the tie-break. -/
theorem order_independent_iff_two :
    let a := plainOperator (.fill 32 1)
    let b := plainOperator (.fill 32 2)
    Thalamus.new.TiesOutranked [a, b] plainRequest ∧
      Thalamus.new.selectedIds [b, a] plainRequest =
        Thalamus.new.selectedIds [a, b] plainRequest := by
  intro a b
  have hne : Thalamus.deterministicTiebreak (.fill 32 1) (Thalamus.generateSeed plainRequest) ≠
      Thalamus.deterministicTiebreak (.fill 32 2) (Thalamus.generateSeed plainRequest) := by
    decide +kernel
  have houtranked : Thalamus.new.TiesOutranked [a, b] plainRequest := by
    intro x hx y hy _ _ hids htie
    simp only [List.mem_cons, List.not_mem_nil, or_false] at hx hy
    rcases hx with rfl | rfl <;> rcases hy with rfl | rfl
    · exact absurd rfl hids
    · rw [ranking_plainOperator, ranking_plainOperator, UInt64.add_right_inj] at htie
      exact absurd htie hne
    · rw [ranking_plainOperator, ranking_plainOperator, UInt64.add_right_inj] at htie
      exact absurd htie.symm hne
    · exact absurd rfl hids
  exact ⟨houtranked, (order_independent_iff Thalamus.new plainRequest rfl [a, b] (by decide)).mpr
    houtranked [b, a] (.swap a b [])⟩

/-- Two operators whose ids have one tie-break, of which the first in the list is selected. -/
theorem order_independent_fails :
    ¬ ∀ (thalamus : Thalamus) (request : RouteRequest), request.executionMode = .deterministic →
      ∀ operators operators' : List OperatorSnapshot, (operators.map (·.id)).Nodup →
        operators'.Perm operators →
          thalamus.selectedIds operators' request = thalamus.selectedIds operators request := by
  intro h
  let a := plainOperator ⟨List.replicate 31 0 ++ [31], rfl⟩
  let b := plainOperator ⟨List.replicate 30 0 ++ [1, 0], rfl⟩
  have hids : ([a, b].map (·.id)).Nodup := by decide
  have htie : Thalamus.new.ranking plainRequest a = Thalamus.new.ranking plainRequest b := by
    rw [ranking_plainOperator, ranking_plainOperator, UInt64.add_right_inj]
    decide +kernel
  have houtranked : Thalamus.new.TiesOutranked [a, b] plainRequest :=
    tiesOutranked_of_perm rfl hids fun operators' => h _ plainRequest rfl [a, b] operators' hids
  have hcount := houtranked a List.mem_cons_self b (List.mem_cons_of_mem a List.mem_cons_self)
    rfl rfl (by decide) htie
  have hnone : [a, b].countP (fun c => Thalamus.new.isEligible c plainRequest &&
      decide (Thalamus.new.ranking plainRequest a < Thalamus.new.ranking plainRequest c)) = 0 := by
    simp [← htie]
  rw [hnone] at hcount
  exact absurd hcount (by decide)

end LiteVision.Intelligence.Routing
