import LiteVision.Intelligence.Dispute
import LiteVision.Words

/-!
# How a slashed amount is split

Three parts of a slashed amount, of 30, 30 and 40 percent, should add up to it. Each is
rounded down, so they do just where the amount is a multiple of ten. The products they are
computed from fit in a word only for amounts that are not too large.
-/

namespace LiteVision.Intelligence

open Lib

/-- The shares make up what is slashed. -/
def DisputeResolution.Exact (resolution : DisputeResolution) : Prop :=
  resolution.challengerShare.toNat + resolution.verifierShare.toNat +
    resolution.treasuryShare.toNat = resolution.slashedAmount.toNat

instance : DecidablePred DisputeResolution.Exact := fun resolution =>
  inferInstanceAs (Decidable (_ = resolution.slashedAmount.toNat))

/-- What a dispute slashes, as a number: the greatest of the minimum and the two parts of
the budget and the cost, or the bond. -/
def Dispute.slashed (dispute : Dispute)
    (governanceMinSlash slashAlphaRatio slashBetaRatio jobBudget verificationCost : UInt64) : Nat :=
  if dispute.fraudProof.FraudConfirmed then
    max (max governanceMinSlash.toNat (jobBudget.toNat * slashAlphaRatio.toNat / 10000))
      (verificationCost.toNat * slashBetaRatio.toNat / 10000)
  else dispute.challengerBond.toNat

/-- The products fit, and the amount can be split into tenths. -/
structure Dispute.SplitsEvenly (dispute : Dispute)
    (governanceMinSlash slashAlphaRatio slashBetaRatio jobBudget verificationCost : UInt64) :
    Prop where
  budget : jobBudget.toNat * slashAlphaRatio.toNat < 2 ^ 64
  cost : verificationCost.toNat * slashBetaRatio.toNat < 2 ^ 64
  amount : dispute.slashed governanceMinSlash slashAlphaRatio slashBetaRatio jobBudget
    verificationCost * 4000 < 2 ^ 64
  tenths : 10 ∣ dispute.slashed governanceMinSlash slashAlphaRatio slashBetaRatio jobBudget
    verificationCost

theorem parts_eq_iff (amount : Nat) :
    amount * 3000 / 10000 + amount * 3000 / 10000 + amount * 4000 / 10000 = amount ↔
      10 ∣ amount := by
  omega

namespace DisputeEngine

variable {c : DisputeCrypto} {engine : DisputeEngine} {dispute : Dispute}
  {jobBudget verificationCost currentBlock : UInt64}

/-- The resolution as in a debug build: `none` where a product overflows. -/
def checkedResolution (engine : DisputeEngine) (dispute : Dispute)
    (jobBudget verificationCost currentBlock : UInt64) : Option DisputeResolution :=
  (checkedMul jobBudget engine.slashAlphaRatio).bind fun alpha =>
    (checkedMul verificationCost engine.slashBetaRatio).bind fun beta =>
      let slashAmount := max (max engine.governanceMinSlash (alpha / 10000)) (beta / 10000)
      let slashedAmount :=
        if dispute.fraudProof.FraudConfirmed then slashAmount else dispute.challengerBond
      let dist := engine.slashDistribution
      (checkedMul slashedAmount dist.challengerShareRatio).bind fun challenger =>
        (checkedMul slashedAmount dist.verifierShareRatio).bind fun verifier =>
          (checkedMul slashedAmount dist.treasuryShareRatio).map fun treasury =>
            { outcome :=
                if dispute.fraudProof.FraudConfirmed then .fraudConfirmed else .fraudRejected
              slashedAmount := slashedAmount
              challengerShare := challenger / 10000
              verifierShare := verifier / 10000
              treasuryShare := treasury / 10000
              operatorPenalty := if dispute.fraudProof.FraudConfirmed then slashAmount else 0
              resolutionBlock := currentBlock }

def slashed (engine : DisputeEngine) (dispute : Dispute) (jobBudget verificationCost : UInt64) :
    Nat :=
  dispute.slashed engine.governanceMinSlash engine.slashAlphaRatio engine.slashBetaRatio jobBudget
    verificationCost

def SplitsEvenly (engine : DisputeEngine) (dispute : Dispute)
    (jobBudget verificationCost : UInt64) : Prop :=
  dispute.SplitsEvenly engine.governanceMinSlash engine.slashAlphaRatio engine.slashBetaRatio
    jobBudget verificationCost

structure AmountFits (engine : DisputeEngine) (jobBudget verificationCost : UInt64) : Prop where
  budget : jobBudget.toNat * engine.slashAlphaRatio.toNat < 2 ^ 64
  cost : verificationCost.toNat * engine.slashBetaRatio.toNat < 2 ^ 64

theorem AmountFits.toNat_slashedAmount (h : engine.AmountFits jobBudget verificationCost)
    (dispute : Dispute) (currentBlock : UInt64) :
    (engine.resolution dispute jobBudget verificationCost currentBlock).slashedAmount.toNat =
      engine.slashed dispute jobBudget verificationCost := by
  simp only [resolution, slashed, Dispute.slashed]
  split
  · rw [toNat_max, toNat_max, UInt64.toNat_div, UInt64.toNat_div, toNat_mul_of_lt h.budget,
      toNat_mul_of_lt h.cost]
    rfl
  · rfl

theorem toNat_share (amount ratio : UInt64) (h : amount.toNat * ratio.toNat < 2 ^ 64) :
    (amount * ratio / 10000).toNat = amount.toNat * ratio.toNat / 10000 := by
  rw [UInt64.toNat_div, toNat_mul_of_lt h]
  rfl

theorem checkedResolution_eq (hdist : engine.slashDistribution = .initial)
    (h : engine.AmountFits jobBudget verificationCost)
    (hamount : engine.slashed dispute jobBudget verificationCost * 4000 < 2 ^ 64) :
    engine.checkedResolution dispute jobBudget verificationCost currentBlock =
      some (engine.resolution dispute jobBudget verificationCost currentBlock) := by
  have hslashed := h.toNat_slashedAmount dispute currentBlock
  rw [← hslashed] at hamount
  have hshare (ratio : UInt64) (hratio : ratio.toNat ≤ 4000) :
      checkedMul (engine.resolution dispute jobBudget verificationCost currentBlock).slashedAmount
        ratio = some
        ((engine.resolution dispute jobBudget verificationCost currentBlock).slashedAmount *
          ratio) :=
    checkedMul_of_lt (Nat.lt_of_le_of_lt (Nat.mul_le_mul_left _ hratio) hamount)
  have hchallenger := hshare 3000 (by decide)
  have htreasury := hshare 4000 (by decide)
  simp only [resolution] at hchallenger htreasury
  simp only [checkedResolution, checkedMul_of_lt h.budget, checkedMul_of_lt h.cost, hdist,
    SlashDistribution.initial, Option.bind_some, hchallenger, htreasury, Option.map_some,
    resolution]

theorem amountFits_of_checkedResolution {r : DisputeResolution}
    (h : engine.checkedResolution dispute jobBudget verificationCost currentBlock = some r) :
    engine.AmountFits jobBudget verificationCost := by
  obtain ⟨_, hbudget, h⟩ := Option.bind_eq_some_iff.mp h
  obtain ⟨_, hcost, -⟩ := Option.bind_eq_some_iff.mp h
  exact ⟨lt_of_checkedMul hbudget, lt_of_checkedMul hcost⟩

theorem treasuryFits_of_checkedResolution (hdist : engine.slashDistribution = .initial)
    {r : DisputeResolution}
    (h : engine.checkedResolution dispute jobBudget verificationCost currentBlock = some r) :
    engine.slashed dispute jobBudget verificationCost * 4000 < 2 ^ 64 := by
  have hslashed := (amountFits_of_checkedResolution h).toNat_slashedAmount dispute currentBlock
  obtain ⟨_, hbudget, h⟩ := Option.bind_eq_some_iff.mp h
  obtain ⟨_, hcost, h⟩ := Option.bind_eq_some_iff.mp h
  obtain ⟨_, -, h⟩ := Option.bind_eq_some_iff.mp h
  obtain ⟨_, -, h⟩ := Option.bind_eq_some_iff.mp h
  obtain ⟨_, htreasury, -⟩ := Option.map_eq_some_iff.mp h
  obtain rfl := eq_mul_of_checkedMul hbudget
  obtain rfl := eq_mul_of_checkedMul hcost
  rw [hdist] at htreasury
  rw [← hslashed]
  exact lt_of_checkedMul htreasury

theorem exact_resolution_iff (hdist : engine.slashDistribution = .initial)
    (h : engine.AmountFits jobBudget verificationCost)
    (hamount : engine.slashed dispute jobBudget verificationCost * 4000 < 2 ^ 64) :
    (engine.resolution dispute jobBudget verificationCost currentBlock).Exact ↔
      10 ∣ engine.slashed dispute jobBudget verificationCost := by
  have hslashed := h.toNat_slashedAmount dispute currentBlock
  rw [← hslashed] at hamount ⊢
  have hfits (ratio : UInt64) (hratio : ratio.toNat ≤ 4000) :
      (engine.resolution dispute jobBudget verificationCost currentBlock).slashedAmount.toNat *
        ratio.toNat < 2 ^ 64 :=
    Nat.lt_of_le_of_lt (Nat.mul_le_mul_left _ hratio) hamount
  have hchallenger := toNat_share _ 3000 (hfits 3000 (by decide))
  have htreasury := toNat_share _ 4000 (hfits 4000 (by decide))
  rw [← parts_eq_iff, DisputeResolution.Exact]
  simp only [resolution, hdist, SlashDistribution.initial] at hchallenger htreasury ⊢
  rw [hchallenger, htreasury]
  rfl

theorem exact_iff (hdist : engine.slashDistribution = .initial) (dispute : Dispute)
    (jobBudget verificationCost currentBlock : UInt64) :
    (∃ r, engine.checkedResolution dispute jobBudget verificationCost currentBlock = some r ∧
      engine.resolution dispute jobBudget verificationCost currentBlock = r ∧ r.Exact) ↔
      engine.SplitsEvenly dispute jobBudget verificationCost := by
  constructor
  · rintro ⟨r, hchecked, rfl, hexact⟩
    have hfits := amountFits_of_checkedResolution hchecked
    have hamount := treasuryFits_of_checkedResolution hdist hchecked
    exact ⟨hfits.budget, hfits.cost, hamount, (exact_resolution_iff hdist hfits hamount).mp hexact⟩
  · intro h
    have hfits : engine.AmountFits jobBudget verificationCost := ⟨h.budget, h.cost⟩
    exact ⟨_, checkedResolution_eq hdist hfits h.amount, rfl,
      (exact_resolution_iff hdist hfits h.amount).mpr h.tenths⟩

-- ---------------------------------------------------------------------------
-- Every run
-- ---------------------------------------------------------------------------

def settings (engine : DisputeEngine) : UInt64 × UInt64 × UInt64 × SlashDistribution :=
  (engine.governanceMinSlash, engine.slashAlphaRatio, engine.slashBetaRatio,
    engine.slashDistribution)

theorem settings_step (c : DisputeCrypto) (engine : DisputeEngine) (op : Op) :
    (step c engine op).settings = engine.settings := by
  rcases step_cases c engine op with hsame | hwrites
  · rw [hsame]
  · generalize step c engine op = after at hwrites ⊢
    cases hwrites <;> rfl

theorem settings_exec (c : DisputeCrypto) (engine : DisputeEngine) (run : List Op) :
    (Trace.exec (step c) engine run).settings = engine.settings :=
  Trace.invariant (I := fun after : DisputeEngine => after.settings = engine.settings)
    (fun after op h => (settings_step c after op).trans h) rfl run

/-- In every state of every run, a dispute that is to be resolved is resolved without
overflow and its amount split exactly, just when it splits evenly. -/
theorem split_exact_iff (c : DisputeCrypto)
    (minChallengerBond governanceMinSlash slashAlphaRatio slashBetaRatio : UInt64) (run : List Op)
    (disputeId : Bytes 32) (dispute : Dispute) (jobBudget verificationCost currentBlock : UInt64) :
    let engine := Trace.exec (step c)
      (new minChallengerBond governanceMinSlash slashAlphaRatio slashBetaRatio) run
    engine.disputes.get disputeId = some dispute → dispute.status = .adjudicating →
    ((∃ r, (engine.resolveDispute disputeId jobBudget verificationCost currentBlock).1 = .ok r ∧
        engine.checkedResolution dispute jobBudget verificationCost currentBlock = some r ∧
        r.Exact) ↔
      dispute.SplitsEvenly governanceMinSlash slashAlphaRatio slashBetaRatio jobBudget
        verificationCost) := by
  intro engine hget hstatus
  have hsettings : engine.settings =
      (governanceMinSlash, slashAlphaRatio, slashBetaRatio, .initial) := settings_exec c _ run
  obtain ⟨hmin, hrest⟩ := Prod.mk.inj hsettings
  obtain ⟨halpha, hrest⟩ := Prod.mk.inj hrest
  obtain ⟨hbeta, hdist⟩ := Prod.mk.inj hrest
  have hresolve : (engine.resolveDispute disputeId jobBudget verificationCost currentBlock).1 =
      .ok (engine.resolution dispute jobBudget verificationCost currentBlock) := by
    rw [resolveDispute, withDispute, hget]
    exact congrArg Prod.fst (if_neg (not_not.mpr hstatus))
  have hexact := exact_iff hdist dispute jobBudget verificationCost currentBlock
  rw [SplitsEvenly, hmin, halpha, hbeta] at hexact
  rw [← hexact, hresolve]
  constructor
  · rintro ⟨r, hok, hchecked, hr⟩
    exact ⟨r, hchecked, Except.ok.inj hok, hr⟩
  · rintro ⟨r, hchecked, rfl, hr⟩
    exact ⟨_, rfl, hchecked, hr⟩

def plainProof : FraudProof :=
  ⟨.fill 32 1, .fill 32 2, .fill 32 3, .fill 32 4, .fill 32 5, .fill 32 6, none,
    ⟨.fill 32 8, [], [], ⟨0, 0, 0, 0, 0, 0⟩⟩, []⟩

def plainRun : List Op :=
  [.initiateDispute (.fill 32 10) (.fill 32 1) plainProof (.fill 32 20) 2000 100 100 500,
    .escalateToVerification (.fill 32 10) 3,
    .submitVerificationResult (.fill 32 10) ⟨.fill 32 10, .fill 32 1, .fill 32 4, [], 3⟩]

def plainDispute : Dispute :=
  ⟨.fill 32 10, .fill 32 10, .fill 32 1, plainProof, .fill 32 20, 2000, .adjudicating, 100, 500,
    none, none, 3⟩

/-- With the first byte as a hash the dispute has the id of its job. -/
def plainCrypto : DisputeCrypto :=
  { blake3 := fun bytes => .fill 32 (bytes.headD 0)
    ed25519Verify := fun _ _ _ => true
    serialize := Dispute.parts.write }

set_option maxRecDepth 2000 in
theorem get_plainRun (governanceMinSlash : UInt64) :
    (Trace.exec (step plainCrypto) (new 1000 governanceMinSlash 2000 1000) plainRun).disputes.get
      (.fill 32 10) = some plainDispute :=
  rfl

theorem split_exact_iff_minimum :
    ∃ r, ((Trace.exec (step plainCrypto) (new 1000 5000 2000 1000) plainRun).resolveDispute
      (.fill 32 10) 10000 1000 200).1 = .ok r ∧ r.Exact := by
  obtain ⟨r, hok, -, hexact⟩ := (split_exact_iff plainCrypto 1000 5000 2000 1000 plainRun
    (.fill 32 10) plainDispute 10000 1000 200 (get_plainRun 5000) rfl).mpr
      ⟨by decide, by decide, by decide, by decide⟩
  exact ⟨r, hok, hexact⟩

/-- Of a minimum of 5001 one unit is lost, and a budget of `2 ^ 63` overflows. -/
theorem split_exact_fails :
    (¬ ∀ (c : DisputeCrypto)
        (minChallengerBond governanceMinSlash slashAlphaRatio slashBetaRatio : UInt64)
        (run : List Op) (disputeId : Bytes 32) (jobBudget verificationCost currentBlock : UInt64)
        (r : DisputeResolution),
      ((Trace.exec (step c) (new minChallengerBond governanceMinSlash slashAlphaRatio
          slashBetaRatio) run).resolveDispute disputeId jobBudget verificationCost
          currentBlock).1 = .ok r → r.Exact) ∧
    ¬ ∀ (c : DisputeCrypto)
        (minChallengerBond governanceMinSlash slashAlphaRatio slashBetaRatio : UInt64)
        (run : List Op) (disputeId : Bytes 32) (dispute : Dispute)
        (jobBudget verificationCost currentBlock : UInt64),
      let engine := Trace.exec (step c)
        (new minChallengerBond governanceMinSlash slashAlphaRatio slashBetaRatio) run
      engine.disputes.get disputeId = some dispute → dispute.status = .adjudicating →
      engine.checkedResolution dispute jobBudget verificationCost currentBlock ≠ none := by
  constructor
  · intro h
    have hexact := h plainCrypto 1000 5001 2000 1000 plainRun (.fill 32 10) 10000 1000 200 _ rfl
    exact absurd hexact (by decide)
  · intro h
    have hsome := h plainCrypto 1000 5000 2000 1000 plainRun (.fill 32 10) plainDispute
      9223372036854775808 1000 200 (get_plainRun 5000) rfl
    obtain ⟨r, hr⟩ := Option.ne_none_iff_exists'.mp hsome
    exact absurd (amountFits_of_checkedResolution hr).budget (by decide)

end DisputeEngine

end LiteVision.Intelligence
