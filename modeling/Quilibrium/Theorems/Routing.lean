import Quilibrium.Theorems.BlockSafety

/-! The two ways in which the manager chooses an engine: by the type of what is deployed, and by how the address begins. -/

namespace Quilibrium
open Except
namespace ManagerEnv

variable {Payload : Type} (env : ManagerEnv Payload)

/-- The domains of the intrinsics and the QUIL token. -/
abbrev WellKnown (b : Bytes) : Prop :=
  b = env.computeDomain ∨ b = env.hypergraphDomain ∨ b = env.tokenDomain ∨ b = env.execution.quilTokenAddress

abbrev Enrolling (frameNumber : Nat) : Prop := env.network = 0 ∧ frameNumber ≤ enrollConfirmEnd

/-- Both methods choose the same engine, or none, and there is no panic. -/
def RoutesAlike (frameNumber : Nat) (address : Bytes) (s : HypergraphState) : Prop :=
  ∃ s' chosen, env.route frameNumber address s = .ok (s', chosen) ∧ chosen.toOption = env.selectEngine address

/-- The metadata at the address can be read and lead to the same engine as its beginning. -/
def DeployedAsNamed (address : Bytes) (s : HypergraphState) : Prop :=
  32 ≤ address.length ∧ ∃ s' domain, env.typeDomain address s = .ok (s', domain) ∧
    (domain.bind (env.engineOf address)).toOption = (env.engineOf address (address.take 32)).toOption

variable {env} {frameNumber : Nat} {address b : Bytes} {s : HypergraphState}

theorem engineOf_eq_none : (env.engineOf address b).toOption = none ↔ ¬env.WellKnown b := by
  unfold engineOf WellKnown
  split_ifs with hc hhg htk
  · simp [Except.toOption, hc]
  · simp [Except.toOption, hhg]
  · simp [Except.toOption, htk]
  · simp [Except.toOption, hc, hhg, not_or.mp htk]

theorem selectEngine_eq (hdm : ∀ b, env.WellKnown b → b.length = 32) (hgl : address ≠ globalIntrinsicAddress) :
    env.selectEngine address = (env.engineOf address (address.take 32)).toOption := by
  rw [selectEngine, if_neg hgl]
  split_ifs with hl hc hhg htk
  · rw [engineOf, if_pos hc, Except.toOption]
  · rw [engineOf, if_neg hc, if_pos hhg, Except.toOption]
  · rw [engineOf, if_neg hc, if_neg hhg, if_pos htk.symm, Except.toOption]
  · rw [engineOf, if_neg hc, if_neg hhg, if_neg fun h => htk h.symm, Except.toOption]
  · refine (engineOf_eq_none.mpr fun hkn => hl ?_).symm
    have hta := hdm _ hkn
    rw [List.length_take] at hta
    omega

theorem le_length_of_typeDomain {r : HypergraphState × Except String Bytes} (h : env.typeDomain address s = .ok r) :
    32 ≤ address.length := by
  obtain ⟨a, -, h⟩ := bind_eq_ok.mp h
  obtain ⟨b, hb, -⟩ := bind_eq_ok.mp h
  unfold HypergraphCRDT.toAddress at hb
  split_ifs at hb with hl
  rw [List.length_drop, List.length_append, List.length_replicate] at hl
  omega

/-- Routing is consistent for the global intrinsic, during the enrollment for all that does not begin with a well-known
    domain, and afterwards for the well-known addresses and for what is deployed as the address says. -/
theorem routes_alike_iff (hdomains : ∀ b, env.WellKnown b → b.length = 32) :
    env.RoutesAlike frameNumber address s ↔ address = globalIntrinsicAddress ∨
      address ≠ globalIntrinsicAddress ∧ (env.Enrolling frameNumber ∧ ¬env.WellKnown (address.take 32) ∨
        ¬env.Enrolling frameNumber ∧ (env.WellKnown address ∨ env.DeployedAsNamed address s)) := by
  by_cases hgl : address = globalIntrinsicAddress
  · simp only [RoutesAlike, route, selectEngine, hgl, true_or, iff_true]
    exact ⟨s, _, rfl, by split_ifs <;> rfl⟩
  rw [RoutesAlike, selectEngine_eq hdomains hgl, route, if_neg hgl, or_iff_right hgl, and_iff_right hgl]
  by_cases henr : env.Enrolling frameNumber
  · rw [if_pos henr, or_iff_left fun h => h.1 henr, and_iff_right henr, ← engineOf_eq_none]
    constructor
    · rintro ⟨s', chosen, heq, hc⟩
      cases heq
      exact hc.symm
    · exact fun hnn => ⟨s, _, rfl, hnn.symm⟩
  rw [if_neg henr, or_iff_right fun h : env.Enrolling frameNumber ∧ _ => henr h.1, and_iff_right henr]
  by_cases hkn : env.WellKnown address
  · rw [if_pos hkn, List.take_of_length_le (hdomains address hkn).le]
    exact ⟨fun _ => .inl hkn, fun _ => ⟨s, _, rfl, rfl⟩⟩
  rw [if_neg hkn, or_iff_right hkn]
  constructor
  · rintro ⟨s', chosen, heq, hc⟩
    obtain ⟨⟨s₁, domain⟩, hty, heq⟩ := bind_eq_ok.mp heq
    cases heq
    exact ⟨le_length_of_typeDomain hty, s', domain, hty, hc⟩
  · rintro ⟨-, s', domain, hty, hc⟩
    exact ⟨s', _, by rw [hty]; rfl, hc⟩

/-- A manager on mainnet whose domains are repeated bytes. -/
def sampleManager : ManagerEnv Unit :=
  { sampleBlocks.toManagerEnv with
    execution := ⟨Crypto.plain, treeFuel, false, List.replicate 32 1, .refusing, .refusing, .refusing, .refusing⟩
    network := 0
    computeDomain := List.replicate 32 2
    hypergraphDomain := List.replicate 32 3
    tokenDomain := List.replicate 32 4 }

theorem routes_alike_iff_token : sampleManager.RoutesAlike 253201 (List.replicate 32 4) sampleWorld := by
  refine (routes_alike_iff ?_).mpr (.inr ⟨by decide, .inr ⟨by decide, .inl (.inr (.inr (.inl rfl)))⟩⟩)
  rintro b (rfl | rfl | rfl | rfl) <;> rfl

/-- A short address panics, and during the enrollment a token message is validated by an engine that does not process it. -/
theorem routes_differ : ¬sampleManager.RoutesAlike 253201 [7] sampleWorld ∧
    sampleManager.selectEngine (List.replicate 32 4) = some .token ∧
    sampleManager.route 253200 (List.replicate 32 4) sampleWorld =
      .ok (sampleWorld, .error "process message: enrollment period has not ended") := by
  refine ⟨?_, by decide, rfl⟩
  rintro ⟨s', chosen, heq, -⟩
  cases heq

end ManagerEnv
end Quilibrium
